import Mathlib.Logic.Function.Basic

/-!
# Heaps of mutable objects

Objects that several structures refer to. A new object gets a reference that no object had; writing to an object is seen through
every reference to it and through no other.
-/

universe u

/-- The objects made so far; the next one lives at `next`. -/
structure ObjectHeap (α : Type u) where
  object : Nat → α
  next : Nat

namespace ObjectHeap

variable {α : Type u}

/-- No object has been made. -/
def empty (a : α) : ObjectHeap α := { object := fun _ => a, next := 0 }

/-- Make an object. -/
def alloc (h : ObjectHeap α) (a : α) : ObjectHeap α := { object := Function.update h.object h.next a, next := h.next + 1 }

/-- Write to an object. -/
def modify (h : ObjectHeap α) (r : Nat) (f : α → α) : ObjectHeap α := { h with object := Function.update h.object r (f (h.object r)) }

@[simp] theorem next_alloc (h : ObjectHeap α) (a : α) : (h.alloc a).next = h.next + 1 := rfl

@[simp] theorem object_alloc_self (h : ObjectHeap α) (a : α) : (h.alloc a).object h.next = a := Function.update_self _ _ _

theorem object_alloc_of_lt {h : ObjectHeap α} {r : Nat} (hr : r < h.next) (a : α) : (h.alloc a).object r = h.object r :=
  Function.update_of_ne (Nat.ne_of_lt hr) _ _

@[simp] theorem object_modify_self (h : ObjectHeap α) (r : Nat) (f : α → α) : (h.modify r f).object r = f (h.object r) :=
  Function.update_self _ _ _

theorem object_modify_of_ne (h : ObjectHeap α) {r r' : Nat} (hr : r' ≠ r) (f : α → α) : (h.modify r f).object r' = h.object r' :=
  Function.update_of_ne hr _ _

theorem object_modify (h : ObjectHeap α) (r r' : Nat) (f : α → α) :
    (h.modify r f).object r' = if r' = r then f (h.object r') else h.object r' := by
  by_cases hr : r' = r
  · subst hr
    rw [if_pos rfl, object_modify_self]
  · rw [if_neg hr, object_modify_of_ne h hr]

/-- What a write does not change of an object, it changes of none. -/
theorem field_modify {β : Type*} (h : ObjectHeap α) (r r' : Nat) {f : α → α} (field : α → β) (hf : ∀ a, field (f a) = field a) :
    field ((h.modify r f).object r') = field (h.object r') := by
  rw [object_modify]
  split
  · exact hf _
  · rfl

end ObjectHeap
