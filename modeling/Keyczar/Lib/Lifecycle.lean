import Mathlib.Logic.Function.Basic

/-!
# Lifecycles of numbered versions

A set of versions with numbers and statuses, at most one of them primary. A version is added with the next number, promoted and
demoted one status at a time, and revoked when it is inactive; a number is never given twice.
-/

namespace Lifecycle

/-- The status of a version; one of unknown status can only be looked at. -/
inductive Status where
  | primary | active | inactive | unknown
  deriving DecidableEq, Repr

/-- The statuses of the versions there are, the number of the primary one, and the number that the next version gets. -/
@[ext] structure State where
  status : Int → Option Status
  primary : Option Int
  next : Int

inductive Op where
  | add (status : Status)
  | promote (n : Int)
  | demote (n : Int)
  | revoke (n : Int)
  deriving DecidableEq, Repr

/-! ## The largest number -/

/-- A loop for the largest number ends at no less than where it started, and at no less than each number. -/
theorem le_foldl_max {α : Type*} (number : α → Int) (l : List α) (m : Int) :
    m ≤ l.foldl (fun m r => if m < number r then number r else m) m ∧
      ∀ r ∈ l, number r ≤ l.foldl (fun m r => if m < number r then number r else m) m := by
  induction l generalizing m with
  | nil => exact ⟨Int.le_refl m, nofun⟩
  | cons r l ih =>
    obtain ⟨h1, h2⟩ := ih (if m < number r then number r else m)
    rw [List.foldl_cons]
    refine ⟨Int.le_trans ?_ h1, ?_⟩
    · split <;> omega
    · intro r' hr'
      rcases List.mem_cons.mp hr' with rfl | hr'
      · refine Int.le_trans ?_ h1
        split <;> omega
      · exact h2 r' hr'

/-- It ends where it started or at one of the numbers. -/
theorem foldl_max_mem {α : Type*} (number : α → Int) (l : List α) (m : Int) :
    l.foldl (fun m r => if m < number r then number r else m) m = m ∨
      ∃ r ∈ l, number r = l.foldl (fun m r => if m < number r then number r else m) m := by
  induction l generalizing m with
  | nil => exact Or.inl rfl
  | cons r l ih =>
    rw [List.foldl_cons]
    rcases ih (if m < number r then number r else m) with heq | ⟨r', hr', heq⟩
    · rw [heq]
      by_cases hm : m < number r
      · rw [if_pos hm]
        exact Or.inr ⟨r, List.mem_cons_self, rfl⟩
      · rw [if_neg hm]
        exact Or.inl rfl
    · exact Or.inr ⟨r', List.mem_cons_of_mem _ hr', heq⟩

/-! ## States -/

namespace State

def assign (s : State) (n : Int) (status : Status) : State := { s with status := Function.update s.status n (some status) }

/-- The primary version becomes active. -/
def release (s : State) : State :=
  match s.primary with
  | none => s
  | some n => { s.assign n .active with primary := none }

/-- A version becomes the primary one. -/
def makePrimary (s : State) (n : Int) : State := { s.release.assign n .primary with primary := some n }

/-- A new version. -/
def add (s : State) (status : Status) : State :=
  { if status = .primary then s.makePrimary s.next else s.assign s.next status with next := s.next + 1 }

def promote (s : State) (n : Int) : Option State :=
  match s.status n with
  | some .active => some (s.makePrimary n)
  | some .inactive => some (s.assign n .active)
  | _ => none

def demote (s : State) (n : Int) : Option State :=
  match s.status n with
  | some .primary => some { s.assign n .active with primary := none }
  | some .active => some (s.assign n .inactive)
  | _ => none

def revoke (s : State) (n : Int) : Option State :=
  match s.status n with
  | some .inactive => some { s with status := Function.update s.status n none }
  | _ => none

/-- One operation; `none` when it is refused. -/
def step (s : State) : Op → Option State
  | .add status => some (s.add status)
  | .promote n => s.promote n
  | .demote n => s.demote n
  | .revoke n => s.revoke n

end State

/-- The primary version is the one with that status, and every version has a number below the next one. -/
structure Sound (s : State) : Prop where
  primary_iff : ∀ n, s.primary = some n ↔ s.status n = some .primary
  lt_next : ∀ n, s.status n ≠ none → n < s.next

namespace Sound

variable {s t : State}

/-- At most one version is primary. -/
theorem primary_unique (h : Sound s) {n m : Int} (hn : s.status n = some .primary) (hm : s.status m = some .primary) : n = m := by
  have h1 := (h.primary_iff n).mpr hn
  rw [(h.primary_iff m).mpr hm] at h1
  exact (Option.some.inj h1).symm

theorem status_next (h : Sound s) : s.status s.next = none := by
  by_contra hne
  exact Int.lt_irrefl _ (h.lt_next _ hne)

/-- Releasing the primary version makes it active and changes no other. -/
theorem status_release (s : State) (n : Int) :
    s.release.status n = if s.primary = some n then some .active else s.status n := by
  unfold State.release
  cases hp : s.primary with
  | none => rfl
  | some p =>
    show Function.update s.status p (some .active) n = _
    by_cases hn : n = p
    · subst hn
      rw [Function.update_self, if_pos rfl]
    · rw [Function.update_of_ne hn, if_neg fun h => hn (Option.some.inj h).symm]

theorem primary_release (s : State) : s.release.primary = none := by
  unfold State.release
  cases hp : s.primary with
  | none => exact hp
  | some p => rfl

theorem next_release (s : State) : s.release.next = s.next := by
  unfold State.release
  cases s.primary <;> rfl

/-- Adding a primary version to a state that has released its own changes nothing. -/
theorem add_release (s : State) : s.release.add .primary = s.add .primary := by
  have hrelease : s.release.release = s.release := by
    unfold State.release
    cases hp : s.primary <;> simp [hp]
  unfold State.add State.makePrimary
  rw [if_pos rfl, if_pos rfl, hrelease, next_release]

/-- Making a version primary, a new one or one there is. -/
theorem makePrimary_primary_iff (h : Sound s) (n m : Int) :
    (s.makePrimary n).primary = some m ↔ (s.makePrimary n).status m = some .primary := by
  show some n = some m ↔ Function.update s.release.status n (some .primary) m = some .primary
  by_cases hm : m = n
  · subst hm
    rw [Function.update_self]
    exact iff_of_true rfl rfl
  · rw [Function.update_of_ne hm, status_release]
    refine iff_of_false (fun he => hm (Option.some.inj he).symm) ?_
    intro hs
    split at hs
    · cases hs
    · rename_i hp
      exact hp ((h.primary_iff m).mpr hs)

theorem makePrimary_lt (h : Sound s) {n m : Int} (hm : (s.makePrimary n).status m ≠ none) : m = n ∨ m < s.next := by
  by_cases hmn : m = n
  · exact Or.inl hmn
  · refine Or.inr ?_
    have hrel : (s.makePrimary n).status m = s.release.status m := Function.update_of_ne hmn _ _
    rw [hrel, status_release] at hm
    split at hm
    · rename_i hp
      exact h.lt_next m (by rw [(h.primary_iff m).mp hp]; exact nofun)
    · exact h.lt_next m hm

/-- Assigning a status other than primary to a version that is not primary. -/
theorem assign_primary_iff (h : Sound s) {n : Int} {status : Status} (hs : status ≠ .primary) (hn : s.primary ≠ some n) (m : Int) :
    (s.assign n status).primary = some m ↔ (s.assign n status).status m = some .primary := by
  show s.primary = some m ↔ Function.update s.status n (some status) m = some .primary
  by_cases hm : m = n
  · subst hm
    rw [Function.update_self]
    exact iff_of_false hn fun he => hs (Option.some.inj he)
  · rw [Function.update_of_ne hm]
    exact h.primary_iff m

theorem assign_lt (h : Sound s) {n m : Int} {status : Status} (hm : (s.assign n status).status m ≠ none) : m = n ∨ m < s.next := by
  by_cases hmn : m = n
  · exact Or.inl hmn
  · refine Or.inr (h.lt_next m ?_)
    have heq : (s.assign n status).status m = s.status m := Function.update_of_ne hmn _ _
    rwa [heq] at hm

theorem ne_primary (h : Sound s) {n : Int} {status : Status} (hst : s.status n = some status) (hs : status ≠ .primary) :
    s.primary ≠ some n := by
  intro hp
  rw [(h.primary_iff n).mp hp] at hst
  exact hs (Option.some.inj hst).symm

/-- Changing the status of a version from and to one that is not primary. -/
theorem assign (h : Sound s) {n : Int} {old status : Status} (hst : s.status n = some old) (hold : old ≠ .primary)
    (hs : status ≠ .primary) : Sound (s.assign n status) := by
  refine ⟨h.assign_primary_iff hs (h.ne_primary hst hold), ?_⟩
  intro m hm
  rcases h.assign_lt hm with rfl | hlt
  · exact h.lt_next m (by rw [hst]; exact nofun)
  · exact hlt

/-- A version that is there after an addition was there before, or it is the new one. -/
theorem status_add (h : Sound s) {status : Status} {n : Int} (hn : (s.add status).status n ≠ none) :
    n = s.next ∨ s.status n ≠ none := by
  by_cases hnext : n = s.next
  · exact Or.inl hnext
  · refine Or.inr ?_
    unfold State.add at hn
    by_cases hs : status = .primary
    · rw [if_pos hs] at hn
      have heq : (s.makePrimary s.next).status n = s.release.status n := Function.update_of_ne hnext _ _
      rw [heq, status_release] at hn
      split at hn
      · rename_i hp
        rw [(h.primary_iff n).mp hp]
        exact nofun
      · exact hn
    · rw [if_neg hs] at hn
      have heq : (s.assign s.next status).status n = s.status n := Function.update_of_ne hnext _ _
      rwa [heq] at hn

theorem add (h : Sound s) (status : Status) : Sound (s.add status) := by
  have hnext : s.primary ≠ some s.next := by
    intro hp
    have := (h.primary_iff s.next).mp hp
    rw [h.status_next] at this
    cases this
  unfold State.add
  by_cases hs : status = .primary
  · rw [if_pos hs]
    refine ⟨h.makePrimary_primary_iff s.next, ?_⟩
    intro m hm
    rcases h.makePrimary_lt hm with rfl | hlt
    · exact Int.lt_succ _
    · exact Int.lt_add_one_of_le (Int.le_of_lt hlt)
  · rw [if_neg hs]
    refine ⟨h.assign_primary_iff hs hnext, ?_⟩
    intro m hm
    rcases h.assign_lt hm with rfl | hlt
    · exact Int.lt_succ _
    · exact Int.lt_add_one_of_le (Int.le_of_lt hlt)

theorem promote (h : Sound s) {n : Int} (ht : s.promote n = some t) : Sound t := by
  unfold State.promote at ht
  split at ht
  · rename_i hst
    cases ht
    refine ⟨h.makePrimary_primary_iff n, ?_⟩
    intro m hm
    show m < s.release.next
    rw [next_release]
    rcases h.makePrimary_lt hm with rfl | hlt
    · exact h.lt_next m (by rw [hst]; exact nofun)
    · exact hlt
  · rename_i hst
    cases ht
    exact h.assign hst nofun nofun
  · cases ht

theorem demote (h : Sound s) {n : Int} (ht : s.demote n = some t) : Sound t := by
  unfold State.demote at ht
  split at ht
  · rename_i hst
    cases ht
    refine ⟨?_, ?_⟩
    · intro m
      show none = some m ↔ Function.update s.status n (some .active) m = some .primary
      refine iff_of_false nofun ?_
      by_cases hm : m = n
      · subst hm
        rw [Function.update_self]
        exact nofun
      · rw [Function.update_of_ne hm]
        exact fun hs => hm (h.primary_unique hs hst)
    · intro m hm
      rcases h.assign_lt hm with rfl | hlt
      · exact h.lt_next m (by rw [hst]; exact nofun)
      · exact hlt
  · rename_i hst
    cases ht
    exact h.assign hst nofun nofun
  · cases ht

theorem revoke (h : Sound s) {n : Int} (ht : s.revoke n = some t) : Sound t := by
  unfold State.revoke at ht
  split at ht
  · rename_i hst
    cases ht
    refine ⟨?_, ?_⟩
    · intro m
      show s.primary = some m ↔ Function.update s.status n none m = some .primary
      by_cases hm : m = n
      · subst hm
        rw [Function.update_self, h.primary_iff, hst]
        exact iff_of_false nofun nofun
      · rw [Function.update_of_ne hm]
        exact h.primary_iff m
    · intro m hm
      show m < s.next
      by_cases hmn : m = n
      · subst hmn
        exact h.lt_next m (by rw [hst]; exact nofun)
      · have heq : Function.update s.status n none m = s.status m := Function.update_of_ne hmn _ _
        exact h.lt_next m (by rw [← heq]; exact hm)
  · cases ht

/-- Every operation that is not refused keeps the state sound. -/
theorem step (h : Sound s) {op : Op} (ht : s.step op = some t) : Sound t := by
  cases op with
  | add status =>
    cases ht
    exact h.add status
  | promote n => exact h.promote ht
  | demote n => exact h.demote ht
  | revoke n => exact h.revoke ht

/-- A sound state is known by its statuses and its next number. -/
theorem ext (hs : Sound s) (ht : Sound t) (hstatus : s.status = t.status) (hnext : s.next = t.next) : s = t := by
  refine State.ext hstatus ?_ hnext
  refine Option.ext fun n => ?_
  rw [hs.primary_iff, ht.primary_iff, hstatus]

end Sound

/-! ## Lists of versions -/

/-- A state holds the versions of a list, and its next number is the first above them. -/
structure Holds (versions : List (Int × Status)) (s : State) : Prop where
  status_iff : ∀ n status, s.status n = some status ↔ (n, status) ∈ versions
  next_pos : 0 < s.next
  next_mem : s.next = 1 ∨ ∃ v ∈ versions, s.next = v.1 + 1

/-- Two sound states that hold the same list are the same. -/
theorem Holds.unique {versions : List (Int × Status)} {s t : State} (h : Holds versions s) (h' : Holds versions t) (hs : Sound s)
    (ht : Sound t) : s = t := by
  have hstatus : s.status = t.status := by
    funext n
    refine Option.ext fun status => ?_
    rw [h.status_iff, h'.status_iff]
  have hle : ∀ {s t : State}, Holds versions s → Holds versions t → Sound t → s.next ≤ t.next := by
    intro s t h h' ht
    rcases h.next_mem with hone | ⟨v, hv, hnext⟩
    · rw [hone]
      exact h'.next_pos
    · rw [hnext]
      refine ht.lt_next v.1 ?_
      rw [(h'.status_iff v.1 v.2).mpr hv]
      exact nofun
  exact hs.ext ht hstatus (Int.le_antisymm (hle h h' ht) (hle h' h hs))

end Lifecycle
