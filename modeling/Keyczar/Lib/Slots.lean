import Mathlib.Data.List.Basic

/-!
# Arrays that are filled from the front

A fixed number of cells and the place where the next one is written. Writing behind the last cell is refused; what was written before
stays.
-/

/-- The cells of an array, and how many of them were written. -/
structure Slots (α : Type) where
  cells : List α
  pos : Nat := 0
  deriving DecidableEq, Repr

namespace Slots

variable {α β : Type}

/-- A new array of `n` cells. -/
def new (blank : α) (n : Nat) : Slots α := { cells := List.replicate n blank }

/-- Write the next cell. -/
def put (a : Slots α) (x : α) : Option (Slots α) :=
  if a.pos < a.cells.length then some { cells := a.cells.set a.pos x, pos := a.pos + 1 } else none

/-- Of the `n` cells, the first hold `w`, and the next one to be written is behind it. -/
structure Holds (a : Slots α) (n : Nat) (w : List α) : Prop where
  take_eq : a.cells.take a.pos = w
  pos_eq : a.pos = w.length
  length_eq : a.cells.length = n

theorem holds_new (blank : α) (n : Nat) : (new blank n).Holds n [] :=
  ⟨by simp [new], rfl, by simp [new]⟩

/-- Where a cell is left, it is written. -/
theorem Holds.put {a : Slots α} {n : Nat} {w : List α} (h : a.Holds n w) (hroom : w.length < n) (x : α) :
    ∃ a', a.put x = some a' ∧ a'.Holds n (w ++ [x]) := by
  have hlt : a.pos < a.cells.length := by rw [h.pos_eq, h.length_eq]; exact hroom
  refine ⟨_, if_pos hlt, ?_, ?_, ?_⟩
  · have hlt' : a.pos < (a.cells.set a.pos x).length := by rw [List.length_set]; exact hlt
    show (a.cells.set a.pos x).take (a.pos + 1) = w ++ [x]
    rw [List.take_succ_eq_append_getElem hlt', List.getElem_set_self, List.take_set,
      List.set_eq_of_length_le (List.length_take_le _ _), h.take_eq]
  · simp [h.pos_eq]
  · simp [h.length_eq]

/-- A full array is what was written. -/
theorem Holds.cells_eq {a : Slots α} {n : Nat} {w : List α} (h : a.Holds n w) (hfull : w.length = n) : a.cells = w := by
  have hlength := h.length_eq
  rw [← h.take_eq, h.pos_eq, List.take_of_length_le (by omega)]

end Slots
