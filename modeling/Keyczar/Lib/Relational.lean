import Mathlib.Logic.Basic

/-!
# Two runs side by side

Two computations that may throw match when they end alike: both throw the same exception, or both return, with values that a relation
holds between. In `EStateM` they also leave the same state. The rules follow the structure of the computations.
-/

namespace Relational

variable {ε σ α β α' β' : Type}

/-! ## `Except` -/

/-- Two results of `Except`. -/
def Alike (V : α → β → Prop) : Except ε α → Except ε β → Prop
  | .ok a, .ok b => V a b
  | .error e, .error e' => e = e'
  | _, _ => False

/-- How two computations that end alike end. -/
theorem Alike.cases {V : α → β → Prop} {x : Except ε α} {y : Except ε β} (h : Alike V x y) :
    (∃ e, x = .error e ∧ y = .error e) ∨ ∃ a b, x = .ok a ∧ y = .ok b ∧ V a b := by
  cases x with
  | ok a =>
    cases y with
    | ok b => exact Or.inr ⟨a, b, rfl, rfl, h⟩
    | error e => exact h.elim
  | error e =>
    cases y with
    | ok b => exact h.elim
    | error e' => exact Or.inl ⟨e, rfl, congrArg Except.error h.symm⟩

/-- Other names for the exceptions. -/
theorem Alike.mapError {ε' : Type} {V : α → β → Prop} {x : Except ε α} {y : Except ε β} (h : Alike V x y) (f : ε → ε') :
    Alike V (x.mapError f) (y.mapError f) := by
  rcases h.cases with ⟨e, rfl, rfl⟩ | ⟨a, b, rfl, rfl, hv⟩
  · exact rfl
  · exact hv

/-! ## `EStateM` -/

/-- Two results of `EStateM`; the relation may look at the state that is left. -/
def Match (V : α → β → σ → Prop) : EStateM.Result ε σ α → EStateM.Result ε σ β → Prop
  | .ok a s, .ok b t => V a b s ∧ s = t
  | .error e s, .error e' t => e = e' ∧ s = t
  | _, _ => False

variable {V : α → β → σ → Prop} {W : α' → β' → σ → Prop}

/-- How two runs that match end. -/
theorem Match.cases {r : EStateM.Result ε σ α} {r' : EStateM.Result ε σ β} (h : Match V r r') :
    (∃ e s, r = .error e s ∧ r' = .error e s) ∨ ∃ a b s, r = .ok a s ∧ r' = .ok b s ∧ V a b s := by
  cases r with
  | ok a s =>
    cases r' with
    | ok b t =>
      obtain ⟨hv, rfl⟩ := h
      exact Or.inr ⟨a, b, s, rfl, rfl, hv⟩
    | error e t => exact h.elim
  | error e s =>
    cases r' with
    | ok b t => exact h.elim
    | error e' t =>
      obtain ⟨rfl, rfl⟩ := h
      exact Or.inl ⟨e, s, rfl, rfl⟩

theorem match_refl (r : EStateM.Result ε σ α) : Match (fun a b _ => a = b) r r := by
  cases r with
  | ok a s => exact ⟨rfl, rfl⟩
  | error e s => exact ⟨rfl, rfl⟩

theorem Match.mono {V' : α → β → σ → Prop} {r : EStateM.Result ε σ α} {r' : EStateM.Result ε σ β} (h : Match V r r')
    (hv : ∀ a b s, V a b s → V' a b s) : Match V' r r' := by
  rcases h.cases with ⟨e, s, rfl, rfl⟩ | ⟨a, b, s, rfl, rfl, hval⟩
  · exact ⟨rfl, rfl⟩
  · exact ⟨hv a b s hval, rfl⟩

/-- What is known of the first result when it returns can be added. -/
theorem Match.and_left {Q : α → σ → Prop} {r : EStateM.Result ε σ α} {r' : EStateM.Result ε σ β} (h : Match V r r')
    (hq : ∀ a s, r = .ok a s → Q a s) : Match (fun a b s => V a b s ∧ Q a s) r r' := by
  rcases h.cases with ⟨e, s, rfl, rfl⟩ | ⟨a, b, s, rfl, rfl, hval⟩
  · exact ⟨rfl, rfl⟩
  · exact ⟨⟨hval, hq a s rfl⟩, rfl⟩

/-- Where the first steps match, and the rest does after them, the sequences match. -/
theorem Match.bind {x : EStateM ε σ α} {y : EStateM ε σ β} {f : α → EStateM ε σ α'} {g : β → EStateM ε σ β'} {s s' : σ}
    (h : Match V (x s) (y s')) (hf : ∀ a b t, V a b t → Match W (f a t) (g b t)) : Match W ((x >>= f) s) ((y >>= g) s') := by
  simp only [Bind.bind, EStateM.bind]
  rcases h.cases with ⟨e, t, hx, hy⟩ | ⟨a, b, t, hx, hy, hv⟩
  · rw [hx, hy]
    exact ⟨rfl, rfl⟩
  · rw [hx, hy]
    exact hf a b t hv

/-- The same first step. -/
theorem match_bind {x : EStateM ε σ α} {f : α → EStateM ε σ α'} {g : α → EStateM ε σ β'} {s : σ}
    (hf : ∀ a t, x s = .ok a t → Match W (f a t) (g a t)) : Match W ((x >>= f) s) ((x >>= g) s) := by
  refine ((match_refl (x s)).and_left fun a t ht => ht).bind ?_
  rintro a b t ⟨rfl, ht⟩
  exact hf a t ht

/-! ## Two kinds of state -/

section Related

variable {τ : Type} {R : σ → τ → Prop} {E : ε → ε → Prop} {V : α → β → Prop} {W : α' → β' → Prop}

/-- Two results over states of different kinds: they end alike, up to the relations on states, exceptions and values. -/
def Related (R : σ → τ → Prop) (E : ε → ε → Prop) (V : α → β → Prop) : EStateM.Result ε σ α → EStateM.Result ε τ β → Prop
  | .ok a s, .ok b t => V a b ∧ R s t
  | .error e s, .error e' t => E e e' ∧ R s t
  | _, _ => False

/-- How two runs that are related end. -/
theorem Related.cases {r : EStateM.Result ε σ α} {r' : EStateM.Result ε τ β} (h : Related R E V r r') :
    (∃ e e' s t, r = .error e s ∧ r' = .error e' t ∧ E e e' ∧ R s t) ∨
    ∃ a b s t, r = .ok a s ∧ r' = .ok b t ∧ V a b ∧ R s t := by
  cases r with
  | ok a s =>
    cases r' with
    | ok b t => exact Or.inr ⟨a, b, s, t, rfl, rfl, h⟩
    | error e t => exact h.elim
  | error e s =>
    cases r' with
    | ok b t => exact h.elim
    | error e' t => exact Or.inl ⟨e, e', s, t, rfl, rfl, h⟩

/-- Where the first steps are related, and the rest is after them, the sequences are related. -/
theorem Related.bind {x : EStateM ε σ α} {y : EStateM ε τ β} {f : α → EStateM ε σ α'} {g : β → EStateM ε τ β'} {s : σ} {t : τ}
    (h : Related R E V (x s) (y t)) (hf : ∀ a b s t, V a b → R s t → Related R E W (f a s) (g b t)) :
    Related R E W ((x >>= f) s) ((y >>= g) t) := by
  simp only [Bind.bind, EStateM.bind]
  rcases h.cases with ⟨e, e', s', t', hx, hy, he, hr⟩ | ⟨a, b, s', t', hx, hy, hv, hr⟩
  · rw [hx, hy]
    exact ⟨he, hr⟩
  · rw [hx, hy]
    exact hf a b s' t' hv hr

end Related

end Relational
