import Mathlib.Data.List.DropRight

/-!
# Segments between separators

A string is cut at every occurrence of a separator, and its segments are joined with it again. Where empty segments at the end are
dropped, the segments that are not empty are all still there.
-/

namespace Segments

variable {α : Type} {c : α}

/-- The segments with a separator between them. -/
def join (c : α) (l : List (List α)) : List α := [c].intercalate l

@[simp] theorem join_singleton (p : List α) : join c [p] = p := by simp [join]

/-- Behind every segment but the last stands a separator. -/
theorem join_cons {l : List (List α)} (h : l ≠ []) (p : List α) : join c (p :: l) = p ++ c :: join c l := by
  cases l with
  | nil => exact absurd rfl h
  | cons q l => simp [join, List.intercalate]

theorem join_concat {l : List (List α)} (h : l ≠ []) (p : List α) : join c (l ++ [p]) = join c l ++ c :: p := by
  induction l with
  | nil => exact absurd rfl h
  | cons q l ih =>
    by_cases hl : l = []
    · subst hl
      rw [List.singleton_append, join_cons (List.cons_ne_nil p []), join_singleton, join_singleton]
    · rw [List.cons_append, join_cons (by simp), ih hl, join_cons hl, List.append_assoc, List.cons_append]

/-- Segments with a separator behind each, and without the last separator. -/
theorem dropLast_flatMap {l : List (List α)} (h : l ≠ []) : (l.flatMap (· ++ [c])).dropLast = join c l := by
  induction l with
  | nil => exact absurd rfl h
  | cons p l ih =>
    by_cases hl : l = []
    · subst hl
      simp
    · have hne : l.flatMap (· ++ [c]) ≠ [] := by
        obtain ⟨q, l', rfl⟩ := List.exists_cons_of_ne_nil hl
        simp
      rw [List.flatMap_cons, List.dropLast_append_of_ne_nil hne, ih hl, join_cons hl, List.append_assoc, List.singleton_append]

/-! ## All segments -/

variable [DecidableEq α]

theorem mem_of_mem_splitOn {s p : List α} (h : p ∈ s.splitOn c) : ∀ x ∈ p, x ∈ s ∧ x ≠ c := by
  induction s generalizing p with
  | nil =>
    rw [List.splitOn_nil, List.mem_singleton] at h
    subst h
    exact fun x hx => absurd hx List.not_mem_nil
  | cons y s ih =>
    by_cases hy : y = c
    · subst hy
      rw [← List.nil_append (y :: s), List.splitOn_append_cons_self, List.splitOn_nil, List.singleton_append, List.mem_cons] at h
      rcases h with rfl | h
      · exact fun x hx => absurd hx List.not_mem_nil
      · exact fun x hx => ⟨List.mem_cons_of_mem y (ih h x hx).1, (ih h x hx).2⟩
    · obtain ⟨q, l, hl⟩ := List.exists_cons_of_ne_nil (List.splitOn_ne_nil c s)
      rw [List.splitOn_cons_eq_if_modifyHead, if_neg (by simpa using hy), hl, List.modifyHead_cons, List.mem_cons] at h
      rw [hl] at ih
      intro x hx
      rcases h with rfl | h
      · rcases List.mem_cons.mp hx with rfl | hx
        · exact ⟨List.mem_cons_self, hy⟩
        · exact ⟨List.mem_cons_of_mem y (ih List.mem_cons_self x hx).1, (ih List.mem_cons_self x hx).2⟩
      · exact ⟨List.mem_cons_of_mem y (ih (List.mem_cons_of_mem q h) x hx).1, (ih (List.mem_cons_of_mem q h) x hx).2⟩

theorem not_mem_of_mem_splitOn {s p : List α} (h : p ∈ s.splitOn c) : c ∉ p := fun hc => (mem_of_mem_splitOn h c hc).2 rfl

theorem join_splitOn (s : List α) : join c (s.splitOn c) = s := List.intercalate_splitOn c

theorem splitOn_join {l : List (List α)} (hl : ∀ p ∈ l, c ∉ p) (hne : l ≠ []) : (join c l).splitOn c = l :=
  List.splitOn_intercalate c hl hne

/-- Every segment is empty exactly where there are only separators. -/
theorem forall_splitOn_eq_nil_iff {s : List α} : (∀ p ∈ s.splitOn c, p = []) ↔ ∀ x ∈ s, x = c := by
  induction s with
  | nil => simp
  | cons y s ih =>
    by_cases hy : y = c
    · subst hy
      rw [← List.nil_append (y :: s), List.splitOn_append_cons_self, List.splitOn_nil, List.singleton_append, List.forall_mem_cons, ih,
        List.nil_append, List.forall_mem_cons]
      simp
    · obtain ⟨q, l, hl⟩ := List.exists_cons_of_ne_nil (List.splitOn_ne_nil c s)
      rw [List.splitOn_cons_eq_if_modifyHead, if_neg (by simpa using hy), hl, List.modifyHead_cons, List.forall_mem_cons,
        List.forall_mem_cons]
      exact iff_of_false (fun h => List.cons_ne_nil y q h.1) fun h => hy h.1

/-! ## Without the empty segments at the end -/

/-- The segments without the empty ones at the end; a string without a separator is one segment. -/
def split (c : α) (s : List α) : List (List α) := if c ∈ s then (s.splitOn c).rdropWhile List.isEmpty else [s]

theorem split_of_not_mem {s : List α} (h : c ∉ s) : split c s = [s] := if_neg h

/-- The segments that are not empty are all kept. -/
theorem mem_split_iff {s p : List α} (hp : p ≠ []) : p ∈ split c s ↔ p ∈ s.splitOn c := by
  unfold split
  split
  · constructor
    · exact fun h => (List.rdropWhile_prefix _ _).subset h
    · intro h
      rw [← List.rdropWhile_append_rtakeWhile (p := List.isEmpty) (l := s.splitOn c), List.mem_append] at h
      rcases h with h | h
      · exact h
      · exact absurd (List.isEmpty_iff.mp (List.mem_rtakeWhile_imp h)) hp
  · rename_i h
    rw [List.splitOn_eq_singleton h]

theorem mem_splitOn_of_mem_split {s p : List α} (h : p ∈ split c s) : p ∈ s.splitOn c := by
  unfold split at h
  split at h
  · exact (List.rdropWhile_prefix _ _).subset h
  · rename_i hc
    rw [List.splitOn_eq_singleton hc]
    exact h

/-- No segment is left exactly of a string of separators only that is not empty. -/
theorem split_eq_nil_iff {s : List α} : split c s = [] ↔ s ≠ [] ∧ ∀ x ∈ s, x = c := by
  unfold split
  split
  · rename_i h
    rw [List.rdropWhile_eq_nil_iff, ← forall_splitOn_eq_nil_iff]
    simp only [List.isEmpty_iff]
    exact (and_iff_right (List.ne_nil_of_mem h)).symm
  · rename_i h
    refine iff_of_false (List.cons_ne_nil s []) ?_
    rintro ⟨hne, hall⟩
    obtain ⟨x, s', rfl⟩ := List.exists_cons_of_ne_nil hne
    exact h (hall x List.mem_cons_self ▸ List.mem_cons_self)

/-- Segments that were joined are found again, unless the last of several is empty. -/
theorem split_join {l : List (List α)} (hl : ∀ p ∈ l, c ∉ p) (hne : l ≠ []) (hlast : l.getLast hne ≠ [] ∨ l = [[]]) :
    split c (join c l) = l := by
  rcases hlast with hlast | rfl
  · by_cases hmem : c ∈ join c l
    · rw [split, if_pos hmem, splitOn_join hl hne, List.rdropWhile_eq_self_iff]
      intro _ hempty
      exact hlast (List.isEmpty_iff.mp hempty)
    · have hsplit := splitOn_join hl hne
      rw [List.splitOn_eq_singleton hmem] at hsplit
      rw [split_of_not_mem hmem, hsplit]
  · rw [join_singleton, split_of_not_mem List.not_mem_nil]

end Segments
