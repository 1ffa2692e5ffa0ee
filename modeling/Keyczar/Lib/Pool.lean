import Mathlib.Logic.Function.Basic
import Mathlib.Data.List.Basic

/-!
# Pools of objects that are used again

A computation may keep a state to itself, such as objects that it has made and will use again, and show its callers only a value.
`Yields` says what the value is when the state is as it should be, and that the state stays so. Where the value does not depend on
the state at all, a sequence of calls gives what each call would give by itself.
-/

namespace Pool

variable {γ δ α β ι σ ε : Type}

/-- From every state with `R`, the value has `V` and the state that is left has `R`. -/
def Yields (R : γ → Prop) (V : α → Prop) (m : StateM γ α) : Prop := ∀ c, R c → V (m c).1 ∧ R (m c).2

section Yields

variable {R : γ → Prop} {V : α → Prop} {W : β → Prop}

theorem yields_pure {a : α} (h : V a) : Yields R V (pure a) := fun _ hc => ⟨h, hc⟩

/-- What is yielded is passed on. -/
theorem Yields.bind {m : StateM γ α} {f : α → StateM γ β} (h : Yields R V m) (hf : ∀ a, V a → Yields R W (f a)) :
    Yields R W (m >>= f) := by
  intro c hc
  obtain ⟨hv, hc'⟩ := h c hc
  exact hf _ hv _ hc'

theorem Yields.mono {V' : α → Prop} {m : StateM γ α} (h : Yields R V m) (hv : ∀ a, V a → V' a) : Yields R V' m := by
  intro c hc
  obtain ⟨hval, hc'⟩ := h c hc
  exact ⟨hv _ hval, hc'⟩

theorem Yields.map {m : StateM γ α} {f : α → β} (h : Yields R V m) (hf : ∀ a, V a → W (f a)) : Yields R W (f <$> m) := by
  intro c hc
  obtain ⟨hv, hc'⟩ := h c hc
  exact ⟨hf _ hv, hc'⟩

/-- A computation on one of two states. -/
def onFst (m : StateM γ α) : StateM (γ × δ) α := fun c => ((m c.1).1, ((m c.1).2, c.2))

/-- A computation on the other. -/
def onSnd (m : StateM δ α) : StateM (γ × δ) α := fun c => ((m c.2).1, (c.1, (m c.2).2))

theorem Yields.onFst {R' : δ → Prop} {m : StateM γ α} (h : Yields R V m) :
    Yields (fun c => R c.1 ∧ R' c.2) V (Pool.onFst m) := by
  rintro c ⟨hc, hc'⟩
  exact ⟨(h _ hc).1, (h _ hc).2, hc'⟩

theorem Yields.onSnd {R' : δ → Prop} {m : StateM γ α} (h : Yields R V m) :
    Yields (fun c => R' c.1 ∧ R c.2) V (Pool.onSnd m) := by
  rintro c ⟨hc, hc'⟩
  exact ⟨(h _ hc').1, hc, (h _ hc').2⟩

/-- Calls whose values do not depend on the state give them in every sequence. -/
theorem yields_mapM {call : ι → StateM γ α} {value : ι → α} {calls : List ι}
    (h : ∀ i ∈ calls, Yields R (· = value i) (call i)) : Yields R (· = calls.map value) (calls.mapM call) := by
  induction calls with
  | nil => exact yields_pure rfl
  | cons i calls ih =>
    rw [List.mapM_cons]
    refine (h i List.mem_cons_self).bind fun a ha => ?_
    refine (ih fun j hj => h j (List.mem_cons_of_mem _ hj)).bind fun as has => ?_
    exact yields_pure (by rw [ha, has, List.map_cons])

end Yields

/-! ## Queues -/

/-- Every object is fit for its queue. -/
def AllFit (Fit : ι → σ → Prop) (queues : ι → List σ) : Prop := ∀ i, ∀ x ∈ queues i, Fit i x

theorem allFit_empty {Fit : ι → σ → Prop} : AllFit Fit fun _ => [] := nofun

section Queues

variable [DecidableEq ι]

/-- The first object of a queue, which is taken out. -/
def poll (i : ι) : StateM (ι → List σ) (Option σ) := fun queues =>
  match queues i with
  | [] => (none, queues)
  | x :: xs => (some x, Function.update queues i xs)

/-- Put an object at the end of a queue. -/
def add (i : ι) (x : σ) : StateM (ι → List σ) Unit := fun queues => ((), Function.update queues i (queues i ++ [x]))

/-- An object of a queue, or what a new one is made to be. -/
def take (i : ι) (make : Except ε σ) : StateM (ι → List σ) (Except ε σ) := do
  match ← poll i with
  | some x => return .ok x
  | none => return make

variable {Fit : ι → σ → Prop}

theorem yields_poll (i : ι) : Yields (AllFit Fit) (fun o => ∀ x ∈ o, Fit i x) (poll i) := by
  intro queues h
  have hi := h i
  unfold poll
  cases hqueue : queues i with
  | nil => exact ⟨nofun, h⟩
  | cons x xs =>
    rw [hqueue] at hi
    refine ⟨?_, ?_⟩
    · rintro y ⟨⟩
      exact hi x List.mem_cons_self
    · intro j y hy
      dsimp only at hy
      by_cases hj : j = i
      · subst hj
        rw [Function.update_self] at hy
        exact hi y (List.mem_cons_of_mem _ hy)
      · rw [Function.update_of_ne hj] at hy
        exact h j y hy

theorem yields_add {i : ι} {x : σ} (hx : Fit i x) : Yields (AllFit Fit) (fun _ => True) (add i x) := by
  refine fun queues h => ⟨trivial, ?_⟩
  intro j y hy
  unfold add at hy
  dsimp only at hy
  by_cases hj : j = i
  · subst hj
    rw [Function.update_self] at hy
    rcases List.mem_append.mp hy with hy | hy
    · exact h _ y hy
    · rw [List.mem_singleton.mp hy]
      exact hx
  · rw [Function.update_of_ne hj] at hy
    exact h j y hy

/-- What is taken is fit, if new objects are fit. When none can be made none was ever in the queue. -/
theorem yields_take {i : ι} {make : Except ε σ} (hnew : ∀ x, make = .ok x → Fit i x) (hmade : ∀ x, Fit i x → ∃ y, make = .ok y) :
    Yields (AllFit Fit)
      (fun r => (∃ e, r = .error e ∧ make = .error e) ∨ ∃ x y, r = .ok x ∧ Fit i x ∧ make = .ok y) (take i make) := by
  refine (yields_poll i).bind fun o ho => ?_
  cases o with
  | some x =>
    obtain ⟨y, hy⟩ := hmade x (ho x rfl)
    exact yields_pure (Or.inr ⟨x, y, rfl, ho x rfl, hy⟩)
  | none =>
    refine yields_pure ?_
    cases hmake : make with
    | error e => exact Or.inl ⟨e, rfl, rfl⟩
    | ok x => exact Or.inr ⟨x, x, rfl, hnew x hmake, rfl⟩

end Queues

end Pool
