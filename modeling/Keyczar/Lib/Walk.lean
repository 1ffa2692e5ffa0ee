import Mathlib.Data.Fintype.Card
import Mathlib.Data.Finset.Card

/-!
# Walks of a partial function

A loop whose next position is a function of its position: it halts when the function is undefined. In a finite domain a walk
halts exactly when it never comes back to a place it has been, and how long it has to be watched is bounded by the size of the
domain.
-/

namespace Walk

variable {α : Type*} (f : α → Option α)

/-- Where the walk is after `n` steps; `none` when it has halted by then. -/
def after : Nat → α → Option α
  | 0, a => some a
  | n + 1, a => (f a).bind (after n)

/-- The places of the first `n` steps. -/
def places : Nat → α → List α
  | 0, _ => []
  | n + 1, a => a :: (match f a with
    | none => []
    | some b => places n b)

/-- The walk comes to a halt. -/
def Halts (a : α) : Prop := ∃ n, after f n a = none

variable {f}

theorem after_add (m n : Nat) (a : α) : after f (m + n) a = (after f m a).bind (after f n) := by
  induction m generalizing a with
  | zero => simp [after]
  | succ m ih =>
    rw [Nat.succ_add]
    simp only [after]
    cases f a with
    | none => rfl
    | some b => exact ih b

/-- A halted walk stays halted. -/
theorem after_none_of_le {m n : Nat} {a : α} (h : after f m a = none) (hmn : m ≤ n) : after f n a = none := by
  obtain ⟨k, rfl⟩ := Nat.exists_eq_add_of_le hmn
  rw [after_add, h]
  rfl

/-- The places of a walk are where it is after each number of steps, as long as it goes on. -/
theorem mem_places_iff {n : Nat} {a b : α} : b ∈ places f n a ↔ ∃ i < n, after f i a = some b := by
  induction n generalizing a with
  | zero => simp [places]
  | succ n ih =>
    simp only [places, List.mem_cons]
    constructor
    · rintro (rfl | h)
      · exact ⟨0, Nat.succ_pos n, rfl⟩
      · cases hf : f a with
        | none => rw [hf] at h; cases h
        | some c =>
          rw [hf] at h
          obtain ⟨i, hi, h'⟩ := ih.mp h
          exact ⟨i + 1, by omega, by simp only [after, hf]; exact h'⟩
    · rintro ⟨i, hi, h⟩
      cases i with
      | zero => exact Or.inl (Option.some.inj h).symm
      | succ i =>
        right
        simp only [after] at h
        cases hf : f a with
        | none => rw [hf] at h; cases h
        | some c =>
          rw [hf] at h
          exact ih.mpr ⟨i, by omega, h⟩

/-- A walk that has not halted has visited as many places as it has made steps. -/
theorem length_places {n : Nat} {a : α} (h : after f n a ≠ none) : (places f n a).length = n := by
  induction n generalizing a with
  | zero => rfl
  | succ n ih =>
    simp only [after] at h
    cases hf : f a with
    | none => rw [hf] at h; exact absurd rfl h
    | some b =>
      rw [hf] at h
      simp only [places, hf, List.length_cons, ih h]

/-- A walk that is back at its start never halts. -/
theorem not_halts_of_return {a : α} {k : Nat} (hk : 0 < k) (h : after f k a = some a) : ¬ Halts f a := by
  rintro ⟨n, hn⟩
  have hloop : ∀ m, after f (m * k) a = some a := by
    intro m
    induction m with
    | zero => rw [Nat.zero_mul]; rfl
    | succ m ih => rw [Nat.succ_mul, after_add, ih]; exact h
  have := after_none_of_le hn (Nat.le_mul_of_pos_right n hk)
  rw [hloop n] at this
  cases this

theorem halts_iff_of_after {a b : α} {k : Nat} (h : after f k a = some b) : Halts f a ↔ Halts f b := by
  constructor
  · rintro ⟨n, hn⟩
    refine ⟨n, ?_⟩
    have := after_none_of_le hn (Nat.le_add_left n k)
    rw [after_add, h] at this
    exact this
  · rintro ⟨n, hn⟩
    exact ⟨k + n, by rw [after_add, h]; exact hn⟩

/-- A walk that halts never comes back to a place. -/
theorem nodup_places_of_halts {a : α} (h : Halts f a) (n : Nat) : (places f n a).Nodup := by
  induction n generalizing a with
  | zero => exact List.nodup_nil
  | succ n ih =>
    cases hf : f a with
    | none => simp [places, hf]
    | some b =>
      have hb : Halts f b := (halts_iff_of_after (k := 1) (by simp [after, hf])).mp h
      simp only [places, hf, List.nodup_cons]
      refine ⟨?_, ih hb⟩
      intro hmem
      obtain ⟨i, _, hi⟩ := mem_places_iff.mp hmem
      exact not_halts_of_return (k := i + 1) (Nat.succ_pos i) (by simp only [after, hf]; exact hi) h

/-- In a domain of fewer than `n` places, a walk whose first `n` places are all different has halted by then. -/
theorem after_eq_none_of_nodup {a : α} {n : Nat} (S : Finset α) (hS : ∀ b c, f b = some c → b ∈ S) (hn : S.card < n)
    (h : (places f n a).Nodup) : after f n a = none := by
  classical
  by_contra hgo
  have hlen := length_places hgo
  have hsub : (places f n a).toFinset ⊆ S := by
    intro b hb
    obtain ⟨i, hi, hat⟩ := mem_places_iff.mp (List.mem_toFinset.mp hb)
    cases hb : f b with
    | none =>
      refine absurd (after_none_of_le (m := i + 1) ?_ (Nat.succ_le_of_lt hi)) hgo
      rw [after_add, hat]
      simp [after, hb]
    | some c => exact hS b c hb
  have hcard := Finset.card_le_card hsub
  rw [List.toFinset_card_of_nodup h, hlen] at hcard
  omega

/-- In a domain of fewer than `n` places, a walk halts exactly when its first `n` places are all different. -/
theorem halts_iff_nodup {a : α} {n : Nat} (S : Finset α) (hS : ∀ b c, f b = some c → b ∈ S) (hn : S.card < n) :
    Halts f a ↔ (places f n a).Nodup :=
  ⟨fun h => nodup_places_of_halts h n, fun h => ⟨n, after_eq_none_of_nodup S hS hn h⟩⟩

/-- However long a walk that has halted is watched, its places are the same. -/
theorem places_eq_of_halted {a : α} {m n : Nat} (hm : after f m a = none) (hn : after f n a = none) : places f m a = places f n a := by
  induction m generalizing n a with
  | zero => cases hm
  | succ m ih =>
    cases n with
    | zero => cases hn
    | succ n =>
      simp only [after] at hm hn
      cases hf : f a with
      | none => simp only [places, hf]
      | some b =>
        rw [hf] at hm hn
        simp only [places, hf, ih hm hn]

end Walk
