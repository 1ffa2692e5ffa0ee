import Mathlib.Data.List.Sort

/-!
# Sets kept in order

A set of elements that are in a strict total order, as the list of its elements from the smallest to the largest. Such a list is
determined by its members.
-/

/-- The elements of a set in their order, each once. -/
structure SortedSet (α : Type) [LT α] where
  elements : List α
  sorted : elements.Pairwise (· < ·)

namespace SortedSet

variable {α : Type} [LT α]

/-- Two sets with the same members are the same. -/
theorem ext_of_mem [Std.Asymm (· < · : α → α → Prop)] {s t : SortedSet α} (h : ∀ x, x ∈ s.elements ↔ x ∈ t.elements) : s = t := by
  obtain ⟨l, hl⟩ := s
  obtain ⟨m, hm⟩ := t
  have hanti : Std.Antisymm (· < · : α → α → Prop) := ⟨fun a b hab hba => absurd hba (Std.Asymm.asymm a b hab)⟩
  have heq : l = m := hl.eq_of_mem_iff hm h
  subst heq
  rfl

/-! ## Adding an element -/

/-- An element goes in front of the first larger one, unless it is in the list. -/
def insert [DecidableLT α] (x : α) : List α → List α
  | [] => [x]
  | y :: l => if x < y then x :: y :: l else if y < x then y :: insert x l else y :: l

section

variable [DecidableLT α] [Std.Trichotomous (· < · : α → α → Prop)]

theorem mem_insert {x z : α} {l : List α} : z ∈ insert x l ↔ z = x ∨ z ∈ l := by
  induction l with
  | nil => simp [insert]
  | cons y l ih =>
    rw [insert]
    by_cases hxy : x < y
    · rw [if_pos hxy, List.mem_cons]
    · rw [if_neg hxy]
      by_cases hyx : y < x
      · rw [if_pos hyx, List.mem_cons, ih, List.mem_cons]
        exact or_left_comm
      · rw [if_neg hyx]
        obtain rfl : x = y := Std.Trichotomous.trichotomous x y hxy hyx
        rw [List.mem_cons]
        exact or_self_left.symm

theorem pairwise_insert [Trans (· < · : α → α → Prop) (· < ·) (· < ·)] (x : α) {l : List α} (h : l.Pairwise (· < ·)) :
    (insert x l).Pairwise (· < ·) := by
  induction l with
  | nil => exact List.pairwise_singleton _ x
  | cons y l ih =>
    obtain ⟨hy, hl⟩ := List.pairwise_cons.mp h
    rw [insert]
    by_cases hxy : x < y
    · rw [if_pos hxy]
      refine List.pairwise_cons.mpr ⟨fun z hz => ?_, h⟩
      rcases List.mem_cons.mp hz with rfl | hz
      · exact hxy
      · exact Trans.trans hxy (hy z hz)
    · rw [if_neg hxy]
      by_cases hyx : y < x
      · rw [if_pos hyx]
        refine List.pairwise_cons.mpr ⟨fun z hz => ?_, ih hl⟩
        rcases mem_insert.mp hz with rfl | hz
        · exact hyx
        · exact hy z hz
      · rw [if_neg hyx]
        exact h

end

section

variable [DecidableLT α] [Std.Trichotomous (· < · : α → α → Prop)] [Trans (· < · : α → α → Prop) (· < ·) (· < ·)]

/-- An element is added, unless it is there. -/
def add (s : SortedSet α) (x : α) : SortedSet α where
  elements := insert x s.elements
  sorted := pairwise_insert x s.sorted

def empty : SortedSet α where
  elements := []
  sorted := List.Pairwise.nil

/-- The elements of a list are added one after another. -/
def ofList (l : List α) : SortedSet α := l.foldl add empty

theorem mem_foldl_add {l : List α} {s : SortedSet α} {z : α} : z ∈ (l.foldl add s).elements ↔ z ∈ s.elements ∨ z ∈ l := by
  induction l generalizing s with
  | nil => simp
  | cons x l ih =>
    rw [List.foldl_cons, ih, add, mem_insert, List.mem_cons, or_assoc]
    exact or_left_comm

@[simp] theorem mem_ofList {l : List α} {z : α} : z ∈ (ofList l).elements ↔ z ∈ l := by
  rw [ofList, mem_foldl_add, empty]
  exact or_iff_right List.not_mem_nil

theorem ofList_eq_iff [Std.Asymm (· < · : α → α → Prop)] {l m : List α} : ofList l = ofList m ↔ ∀ x, x ∈ l ↔ x ∈ m := by
  constructor
  · intro h x
    rw [← mem_ofList, h, mem_ofList]
  · intro h
    refine ext_of_mem fun x => ?_
    rw [mem_ofList, mem_ofList]
    exact h x

/-- A list that is in order already is kept. -/
theorem elements_ofList [Std.Asymm (· < · : α → α → Prop)] (s : SortedSet α) : ofList s.elements = s :=
  ext_of_mem fun _ => mem_ofList

end

end SortedSet
