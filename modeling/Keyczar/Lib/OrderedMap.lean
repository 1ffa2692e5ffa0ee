import Mathlib.Order.Lattice
import Mathlib.Data.List.Induction
import Mathlib.Data.List.Pairwise
import Mathlib.Logic.Function.Basic

/-!
# Ordered maps, and maps as functions

Maps whose entries are listed by ascending key, each key once. A look-up after an insertion or an erasure is what it was, except at
the key. At the end, a map that is filled from a list of entries.
-/

/-- A map with its entries in ascending order of their keys. -/
structure OrderedMap (κ α : Type) [LinearOrder κ] where
  entries : List (κ × α)
  sorted : entries.Pairwise fun a b => a.1 < b.1

namespace OrderedMap

variable {κ α : Type} [LinearOrder κ]

/-- The map without entries. -/
def empty : OrderedMap κ α := ⟨[], List.Pairwise.nil⟩

/-- The value of a key in a list of entries. -/
def findEntry (k : κ) : List (κ × α) → Option α
  | [] => none
  | e :: l => if k = e.1 then some e.2 else findEntry k l

def find (m : OrderedMap κ α) (k : κ) : Option α := findEntry k m.entries

/-- Put an entry in its place, or in the place of one with the same key. -/
def insertEntry (k : κ) (v : α) : List (κ × α) → List (κ × α)
  | [] => [(k, v)]
  | e :: l => if k < e.1 then (k, v) :: e :: l else if k = e.1 then (k, v) :: l else e :: insertEntry k v l

theorem mem_insertEntry {k : κ} {v : α} {l : List (κ × α)} {e : κ × α} (h : e ∈ insertEntry k v l) : e = (k, v) ∨ e ∈ l := by
  induction l with
  | nil => exact Or.inl (List.mem_singleton.mp h)
  | cons e' l ih =>
    unfold insertEntry at h
    split at h
    · exact List.mem_cons.mp h
    · split at h
      · exact (List.mem_cons.mp h).imp_right (List.mem_cons_of_mem e')
      · rcases List.mem_cons.mp h with rfl | h
        · exact Or.inr (List.mem_cons_self ..)
        · exact (ih h).imp_right (List.mem_cons_of_mem e')

theorem mem_of_findEntry {k : κ} {v : α} {l : List (κ × α)} (h : findEntry k l = some v) : (k, v) ∈ l := by
  induction l with
  | nil => cases h
  | cons e l ih =>
    unfold findEntry at h
    split at h
    · rename_i heq
      rw [heq, ← Option.some.inj h]
      exact List.mem_cons_self
    · exact List.mem_cons_of_mem e (ih h)

theorem sorted_insertEntry {k : κ} {v : α} {l : List (κ × α)} (h : l.Pairwise fun a b => a.1 < b.1) :
    (insertEntry k v l).Pairwise fun a b => a.1 < b.1 := by
  induction l with
  | nil => exact List.pairwise_singleton _ _
  | cons e l ih =>
    obtain ⟨he, hl⟩ := List.pairwise_cons.mp h
    unfold insertEntry
    split
    · rename_i hlt
      refine List.pairwise_cons.mpr ⟨?_, h⟩
      intro e' he'
      rcases List.mem_cons.mp he' with rfl | he'
      · exact hlt
      · exact hlt.trans (he e' he')
    · rename_i hge
      split
      · rename_i heq
        refine List.pairwise_cons.mpr ⟨?_, hl⟩
        intro e' he'
        rw [heq]
        exact he e' he'
      · rename_i hne
        refine List.pairwise_cons.mpr ⟨?_, ih hl⟩
        intro e' he'
        rcases mem_insertEntry he' with rfl | he'
        · exact lt_of_le_of_ne (not_lt.mp hge) (Ne.symm hne)
        · exact he e' he'

/-- An entry whose key is above all goes to the end. -/
theorem insertEntry_of_forall_lt {k : κ} {l : List (κ × α)} (h : ∀ e ∈ l, e.1 < k) (v : α) : insertEntry k v l = l ++ [(k, v)] := by
  induction l with
  | nil => rfl
  | cons e l ih =>
    have he := h e List.mem_cons_self
    rw [insertEntry, if_neg (not_lt_of_gt he), if_neg (ne_of_gt he), ih fun e' he' => h e' (List.mem_cons_of_mem e he')]
    rfl

def insert (m : OrderedMap κ α) (k : κ) (v : α) : OrderedMap κ α := ⟨insertEntry k v m.entries, sorted_insertEntry m.sorted⟩

def erase (m : OrderedMap κ α) (k : κ) : OrderedMap κ α := ⟨m.entries.filter (·.1 ≠ k), m.sorted.filter _⟩

theorem findEntry_insertEntry (k k' : κ) (v : α) (l : List (κ × α)) :
    findEntry k' (insertEntry k v l) = if k' = k then some v else findEntry k' l := by
  induction l with
  | nil => rfl
  | cons e l ih =>
    unfold insertEntry
    split
    · rfl
    · split
      · rename_i heq
        by_cases hk : k' = k
        · rw [findEntry, if_pos hk, if_pos hk]
        · rw [findEntry, if_neg hk, if_neg hk, findEntry, if_neg fun h => hk (h.trans heq.symm)]
      · rename_i hne
        rw [findEntry, ih, findEntry]
        by_cases hk : k' = k
        · rw [if_pos hk, if_pos hk, if_neg fun h => hne (hk.symm.trans h)]
        · rw [if_neg hk, if_neg hk]

/-- An insertion is seen at its key only. -/
theorem find_insert (m : OrderedMap κ α) (k k' : κ) (v : α) : (m.insert k v).find k' = if k' = k then some v else m.find k' :=
  findEntry_insertEntry k k' v m.entries

/-- An erasure is seen at its key only. -/
theorem find_erase (m : OrderedMap κ α) (k k' : κ) : (m.erase k).find k' = if k' = k then none else m.find k' := by
  obtain ⟨l, hl⟩ := m
  show findEntry k' (l.filter (·.1 ≠ k)) = if k' = k then none else findEntry k' l
  clear hl
  induction l with
  | nil => by_cases h : k' = k <;> simp [findEntry, h]
  | cons e l ih =>
    by_cases he : e.1 = k
    · rw [List.filter_cons_of_neg (by simpa using he), ih]
      by_cases hk : k' = k
      · rw [if_pos hk, if_pos hk]
      · rw [if_neg hk, if_neg hk, findEntry, if_neg fun h => hk (h.trans he)]
    · rw [List.filter_cons_of_pos (by simpa using he), findEntry, ih, findEntry]
      by_cases hk : k' = k
      · rw [if_pos hk, if_pos hk, if_neg fun h => he (h.symm.trans hk)]
      · rw [if_neg hk, if_neg hk]

/-- The entries are what is found. -/
theorem mem_entries_iff (m : OrderedMap κ α) {k : κ} {v : α} : (k, v) ∈ m.entries ↔ m.find k = some v := by
  obtain ⟨l, hl⟩ := m
  show (k, v) ∈ l ↔ findEntry k l = some v
  induction l with
  | nil => simp [findEntry]
  | cons e l ih =>
    obtain ⟨he, hl⟩ := List.pairwise_cons.mp hl
    rw [List.mem_cons, ih hl, findEntry]
    by_cases hk : k = e.1
    · rw [if_pos hk]
      constructor
      · rintro (h | h)
        · rw [← h]
        · exact absurd (he _ ((ih hl).mpr h)) (by rw [hk]; exact lt_irrefl _)
      · intro h
        exact Or.inl (Prod.ext hk (Option.some.inj h).symm)
    · rw [if_neg hk]
      constructor
      · rintro (h | h)
        · exact absurd (congrArg Prod.fst h) hk
        · exact h
      · exact Or.inr

/-- Maps with the same look-ups are the same. -/
theorem ext_find {m m' : OrderedMap κ α} (h : ∀ k, m.find k = m'.find k) : m = m' := by
  have hentries : m.entries = m'.entries := by
    have hirrefl : ∀ a b : κ × α, a.1 < b.1 → b.1 < a.1 → a = b := fun a b hab hba => absurd hba (lt_asymm hab)
    refine List.Perm.eq_of_pairwise (fun a b _ _ => hirrefl a b) m.sorted m'.sorted ?_
    refine (List.perm_ext_iff_of_nodup ?_ ?_).mpr ?_
    · exact m.sorted.imp fun hlt heq => absurd (congrArg Prod.fst heq) (ne_of_lt hlt)
    · exact m'.sorted.imp fun hlt heq => absurd (congrArg Prod.fst heq) (ne_of_lt hlt)
    · intro e
      obtain ⟨k, v⟩ := e
      rw [mem_entries_iff, mem_entries_iff, h]
  obtain ⟨l, hl⟩ := m
  obtain ⟨l', hl'⟩ := m'
  cases hentries
  rfl

end OrderedMap

/-! ## Maps that are filled from a list -/

/-- A map filled from a list whose keys are distinct leads from each key to its value. -/
theorem List.foldl_update_iff {κ β γ : Type*} [DecidableEq κ] {key : β → κ} {value : β → γ} {l : List β} (h : (l.map key).Nodup)
    (k : κ) (c : γ) :
    l.foldl (fun m e => Function.update m (key e) (some (value e))) (fun _ => none) k = some c ↔ ∃ e ∈ l, key e = k ∧ value e = c := by
  induction l using List.reverseRecOn with
  | nil => exact iff_of_false nofun fun ⟨_, hmem, _⟩ => nomatch hmem
  | append_singleton l e ih =>
    rw [List.map_append, List.nodup_append] at h
    obtain ⟨hnodup, -, hdisjoint⟩ := h
    rw [List.foldl_append, List.foldl_cons, List.foldl_nil]
    by_cases hk : k = key e
    · subst hk
      rw [Function.update_self, Option.some_inj]
      constructor
      · rintro rfl
        exact ⟨e, List.mem_append_right _ List.mem_cons_self, rfl, rfl⟩
      · rintro ⟨e', hmem, heq, rfl⟩
        rcases List.mem_append.mp hmem with hold | hlast
        · exact absurd heq (hdisjoint _ (List.mem_map_of_mem hold) _ (by simp))
        · rw [List.mem_singleton.mp hlast]
    · rw [Function.update_of_ne hk, ih hnodup]
      constructor
      · rintro ⟨e', hmem, heq, hvalue⟩
        exact ⟨e', List.mem_append_left _ hmem, heq, hvalue⟩
      · rintro ⟨e', hmem, heq, hvalue⟩
        rcases List.mem_append.mp hmem with hold | hlast
        · exact ⟨e', hold, heq, hvalue⟩
        · rw [List.mem_singleton.mp hlast] at heq
          exact absurd heq.symm hk
