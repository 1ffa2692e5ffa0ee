import Mathlib.Data.List.Basic

/-!
# Strings that commute

Two strings give the same string in both orders only when they repeat a single one.
-/

namespace Words

variable {α : Type}

/-- The string `n` times. -/
def times (n : Nat) (w : List α) : List α := (List.replicate n w).flatten

theorem times_add (m n : Nat) (w : List α) : times m w ++ times n w = times (m + n) w := by
  unfold times
  rw [List.replicate_add, List.flatten_append]

/-- Both strings repeat one string. -/
def Repeat (x y : List α) : Prop := ∃ w m n, x = times m w ∧ y = times n w

theorem Repeat.symm {x y : List α} (h : Repeat x y) : Repeat y x := by
  obtain ⟨w, m, n, hx, hy⟩ := h
  exact ⟨w, n, m, hy, hx⟩

theorem Repeat.append {x y : List α} (h : Repeat x y) : Repeat x (x ++ y) := by
  obtain ⟨w, m, n, rfl, rfl⟩ := h
  exact ⟨w, m, m + n, rfl, times_add m n w⟩

theorem repeat_nil (y : List α) : Repeat [] y := ⟨y, 0, 1, rfl, (List.append_nil y).symm⟩

/-- The shorter of two strings that commute is the start of the longer one, and commutes with the rest. -/
theorem exists_rest_of_append_comm {x y : List α} (h : x ++ y = y ++ x) (hle : x.length ≤ y.length) :
    ∃ z, y = x ++ z ∧ x ++ z = z ++ x := by
  have hprefix : x <+: y := List.prefix_of_prefix_length_le (h ▸ List.prefix_append x y) (List.prefix_append y x) hle
  obtain ⟨z, rfl⟩ := hprefix
  rw [List.append_assoc] at h
  exact ⟨z, rfl, List.append_cancel_left h⟩

/-- Strings that commute repeat one string. -/
theorem repeat_of_append_comm (x y : List α) (h : x ++ y = y ++ x) : Repeat x y := by
  -- By induction on the sum of the lengths: the shorter one is cut from the longer one.
  induction hn : x.length + y.length using Nat.strongRecOn generalizing x y with
  | ind n ih =>
    rcases x with _ | ⟨a, x⟩
    · exact repeat_nil y
    · rcases y with _ | ⟨b, y⟩
      · exact (repeat_nil _).symm
      · rcases Nat.le_total (a :: x).length (b :: y).length with hle | hle
        · obtain ⟨z, hz, hcomm⟩ := exists_rest_of_append_comm h hle
          rw [hz] at hn ⊢
          rw [List.length_append] at hn
          exact (ih _ (by rw [← hn, List.length_cons]; omega) _ _ hcomm rfl).append
        · obtain ⟨z, hz, hcomm⟩ := exists_rest_of_append_comm h.symm hle
          rw [hz] at hn ⊢
          rw [List.length_append] at hn
          exact (ih _ (by rw [← hn, List.length_cons]; omega) _ _ hcomm rfl).append.symm

theorem append_comm_iff {x y : List α} : x ++ y = y ++ x ↔ Repeat x y := by
  constructor
  · exact repeat_of_append_comm x y
  · rintro ⟨w, m, n, rfl, rfl⟩
    rw [times_add, times_add, Nat.add_comm]

end Words
