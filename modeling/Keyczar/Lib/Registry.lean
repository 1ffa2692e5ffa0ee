import Keyczar.Lib.Lifecycle

/-!
# Registries of version objects

A lifecycle that is kept in objects: a version is found by its number, its status is written in the object, and the primary version is
a reference. When the references fit the objects, each operation on the registry comes to the operation on the lifecycle.
-/

namespace Lifecycle

/-- In the lifecycle, a new primary version may be active at first. -/
theorem State.add_primary (s : State) :
    s.add .primary = ({ s.assign s.next .active with next := s.next + 1 } : State).makePrimary s.next := by
  cases hp : s.primary with
  | none => simp [State.add, State.makePrimary, State.release, State.assign, hp]
  | some p =>
    by_cases hpn : p = s.next
    · simp [State.add, State.makePrimary, State.release, State.assign, hp, hpn]
    · simp [State.add, State.makePrimary, State.release, State.assign, hp, Function.update_comm hpn]

universe u

/-- Versions that are objects, each with a number and a status. Some are found by number, and one may be the primary one. -/
@[ext] structure Registry (Ref : Type u) where
  find : Int → Option Ref
  number : Ref → Int
  status : Ref → Status
  primary : Option Ref
  next : Int

namespace Registry

variable {Ref : Type u}

/-- The lifecycle that a registry keeps. -/
def state (g : Registry Ref) : State where
  status n := (g.find n).map g.status
  primary := g.primary.map g.number
  next := g.next

/-- A version is found under its own number, the primary one is found, and numbers are below the next one. -/
structure Wellformed (g : Registry Ref) : Prop where
  number_eq : ∀ {n r}, g.find n = some r → g.number r = n
  primary_iff : ∀ r, g.primary = some r ↔ g.find (g.number r) = some r ∧ g.status r = .primary
  lt_next : ∀ {n r}, g.find n = some r → n < g.next

theorem status_state {g : Registry Ref} {n : Int} {r : Ref} (h : g.find n = some r) : g.state.status n = some (g.status r) := by
  simp [state, h]

theorem status_state_of_none {g : Registry Ref} {n : Int} (h : g.find n = none) : g.state.status n = none := by
  simp [state, h]

/-- The primary version of the lifecycle is found as the primary object. -/
theorem Wellformed.primary_state_iff {g : Registry Ref} (h : g.Wellformed) {n : Int} {r : Ref} (hr : g.find n = some r) :
    g.state.primary = some n ↔ g.primary = some r := by
  have hn := h.number_eq hr
  constructor
  · intro hp
    obtain ⟨r', hr', hn'⟩ := Option.map_eq_some_iff.mp hp
    have hfound := ((h.primary_iff r').mp hr').1
    rw [hn', hr] at hfound
    rw [hr', Option.some.inj hfound]
  · intro hp
    simp [state, hp, hn]

theorem Wellformed.sound {g : Registry Ref} (h : g.Wellformed) : Sound g.state := by
  refine ⟨?_, ?_⟩
  · intro n
    cases hn : g.find n with
    | none =>
      rw [status_state_of_none hn]
      refine iff_of_false ?_ nofun
      intro hp
      obtain ⟨r, hr, hnum⟩ := Option.map_eq_some_iff.mp hp
      have hfound := ((h.primary_iff r).mp hr).1
      rw [hnum, hn] at hfound
      cases hfound
    | some r =>
      rw [h.primary_state_iff hn, status_state hn, Option.some_inj, h.primary_iff, h.number_eq hn]
      exact and_iff_right hn
  · intro n hn
    obtain ⟨status, hst⟩ := Option.ne_none_iff_exists'.mp hn
    obtain ⟨r, hr, -⟩ := Option.map_eq_some_iff.mp hst
    exact h.lt_next hr

/-! ## Writing to the objects -/

/-- A version under another number is another object. -/
theorem Wellformed.ne_of_find {g : Registry Ref} {n n' : Int} {r r' : Ref} (h : g.Wellformed) (hr : g.find n = some r)
    (hr' : g.find n' = some r') (hn : n' ≠ n) : r' ≠ r := by
  rintro rfl
  exact hn ((h.number_eq hr').symm.trans (h.number_eq hr))

/-- A version is no longer found. -/
def remove (g : Registry Ref) (n : Int) : Registry Ref := { g with find := Function.update g.find n none }

theorem Wellformed.remove {g : Registry Ref} {n : Int} {r : Ref} (h : g.Wellformed) (hr : g.find n = some r)
    (hold : g.status r ≠ .primary) :
    (g.remove n).state = { g.state with status := Function.update g.state.status n none } ∧ (g.remove n).Wellformed := by
  have hfound : ∀ {n' r'}, (g.remove n).find n' = some r' → n' ≠ n ∧ g.find n' = some r' := by
    intro n' r' hr'
    by_cases hn : n' = n
    · subst hn
      simp [Registry.remove] at hr'
    · simp only [Registry.remove, Function.update_of_ne hn] at hr'
      exact ⟨hn, hr'⟩
  refine ⟨State.ext ?_ rfl rfl, fun hr' => h.number_eq (hfound hr').2, ?_, fun hr' => h.lt_next (hfound hr').2⟩
  · funext n'
    by_cases hn : n' = n
    · subst hn
      simp [state, Registry.remove]
    · simp [state, Registry.remove, hn]
  · intro r'
    show g.primary = some r' ↔ (g.remove n).find (g.number r') = some r' ∧ g.status r' = .primary
    constructor
    · intro hp
      obtain ⟨hr', hst⟩ := (h.primary_iff r').mp hp
      refine ⟨?_, hst⟩
      have hn : g.number r' ≠ n := by
        intro hn
        rw [hn, hr] at hr'
        cases hr'
        exact hold hst
      simp [Registry.remove, Function.update_of_ne hn, hr']
    · rintro ⟨hr', hst⟩
      exact (h.primary_iff r').mpr ⟨(hfound hr').2, hst⟩

section Writes

variable [DecidableEq Ref]

def setStatus (g : Registry Ref) (r : Ref) (status : Status) : Registry Ref :=
  { g with status := Function.update g.status r status }

/-- What was the primary version becomes active, and another version becomes the primary one. -/
def makePrimary (g : Registry Ref) (r : Ref) : Registry Ref :=
  { g with
    status := fun r' => if r' = r then .primary else if g.primary = some r' then .active else g.status r'
    primary := some r }

/-- The primary version becomes active, and there is none. -/
def clearPrimary (g : Registry Ref) (r : Ref) : Registry Ref := { g.setStatus r .active with primary := none }

/-- A new object is found under the next number. -/
def insert (g : Registry Ref) (r : Ref) (status : Status) : Registry Ref where
  find := Function.update g.find g.next (some r)
  number := Function.update g.number r g.next
  status := Function.update g.status r status
  primary := g.primary
  next := g.next + 1

/-- A new object, which takes the place of the primary one if it is to be primary. -/
def add (g : Registry Ref) (r : Ref) (status : Status) : Registry Ref :=
  if status = .primary then (g.insert r .active).makePrimary r else g.insert r status

variable {g : Registry Ref} {n : Int} {r : Ref}

theorem Wellformed.setStatus (h : g.Wellformed) (hr : g.find n = some r) (hold : g.status r ≠ .primary) (status : Status)
    (hnew : status ≠ .primary) : (g.setStatus r status).state = g.state.assign n status ∧ (g.setStatus r status).Wellformed := by
  refine ⟨State.ext ?_ rfl rfl, h.number_eq, ?_, h.lt_next⟩
  · funext n'
    by_cases hn : n' = n
    · subst hn
      simp [state, Registry.setStatus, State.assign, hr]
    · cases hr' : g.find n' with
      | none => simp [state, Registry.setStatus, State.assign, hn, hr']
      | some r' => simp [state, Registry.setStatus, State.assign, hn, hr', h.ne_of_find hr hr' hn]
  · intro r'
    by_cases hr' : r' = r
    · subst hr'
      simp [Registry.setStatus, h.primary_iff, hold, hnew]
    · simp [Registry.setStatus, h.primary_iff, hr']

theorem Wellformed.makePrimary (h : g.Wellformed) (hr : g.find n = some r) :
    (g.makePrimary r).state = g.state.makePrimary n ∧ (g.makePrimary r).Wellformed := by
  have hnum := h.number_eq hr
  refine ⟨State.ext ?_ ?_ ?_, h.number_eq, ?_, h.lt_next⟩
  · funext n'
    by_cases hn : n' = n
    · subst hn
      simp [state, Registry.makePrimary, State.makePrimary, State.assign, hr]
    · have hother : (g.state.makePrimary n).status n' = g.state.release.status n' := Function.update_of_ne hn _ _
      rw [hother, Sound.status_release]
      cases hr' : g.find n' with
      | none =>
        have hp : g.state.primary ≠ some n' := by
          rw [Ne, h.sound.primary_iff, status_state_of_none hr']
          exact nofun
        simp [state, Registry.makePrimary, hr'] at hp ⊢
        exact fun p hp' hn' => hp p hp' hn'
      | some r' =>
        simp only [h.primary_state_iff hr', status_state hr']
        simp [state, Registry.makePrimary, hr', h.ne_of_find hr hr' hn]
        split <;> rfl
  · simp [state, Registry.makePrimary, State.makePrimary, hnum]
  · exact (Sound.next_release g.state).symm
  · intro r'
    by_cases hr' : r' = r
    · subst hr'
      simp [Registry.makePrimary, hnum, hr]
    · refine iff_of_false (fun hc => hr' (Option.some.inj hc).symm) ?_
      rintro ⟨hfound, hst⟩
      simp only [Registry.makePrimary, if_neg hr'] at hst
      split at hst
      · cases hst
      · rename_i hp
        exact hp ((h.primary_iff r').mpr ⟨hfound, hst⟩)

theorem Wellformed.clearPrimary (h : g.Wellformed) (hr : g.find n = some r) (hold : g.status r = .primary) :
    (g.clearPrimary r).state = { g.state.assign n .active with primary := none } ∧ (g.clearPrimary r).Wellformed := by
  have hp : g.primary = some r := by
    rw [h.primary_iff, h.number_eq hr]
    exact ⟨hr, hold⟩
  refine ⟨State.ext ?_ rfl rfl, h.number_eq, ?_, h.lt_next⟩
  · funext n'
    by_cases hn : n' = n
    · subst hn
      simp [state, Registry.clearPrimary, Registry.setStatus, State.assign, hr]
    · cases hr' : g.find n' with
      | none => simp [state, Registry.clearPrimary, Registry.setStatus, State.assign, hn, hr']
      | some r' => simp [state, Registry.clearPrimary, Registry.setStatus, State.assign, hn, hr', h.ne_of_find hr hr' hn]
  · intro r'
    refine iff_of_false nofun ?_
    rintro ⟨hfound, hst⟩
    by_cases hr' : r' = r
    · subst hr'
      simp [Registry.clearPrimary, Registry.setStatus] at hst
    · simp only [Registry.clearPrimary, Registry.setStatus, Function.update_of_ne hr'] at hst
      have hp' := (h.primary_iff r').mpr ⟨hfound, hst⟩
      rw [hp] at hp'
      exact hr' (Option.some.inj hp').symm

/-- A new object that is not primary. -/
theorem Wellformed.insert (h : g.Wellformed) (hfresh : ∀ n, g.find n ≠ some r) (status : Status) (hst : status ≠ .primary) :
    (g.insert r status).state = { g.state.assign g.state.next status with next := g.state.next + 1 } ∧
    (g.insert r status).Wellformed := by
  have hp : g.primary ≠ some r := fun hp => hfresh _ ((h.primary_iff r).mp hp).1
  have hold : ∀ {n' r'}, n' ≠ g.next → (g.insert r status).find n' = some r' → g.find n' = some r' ∧ r' ≠ r := by
    intro n' r' hn hr'
    simp only [Registry.insert, Function.update_of_ne hn] at hr'
    exact ⟨hr', fun heq => hfresh n' (heq ▸ hr')⟩
  have hnew : ∀ {r'}, (g.insert r status).find g.next = some r' → r' = r := by
    intro r' hr'
    simp only [Registry.insert, Function.update_self] at hr'
    exact (Option.some.inj hr').symm
  refine ⟨State.ext ?_ ?_ rfl, ?_, ?_, ?_⟩
  · funext n'
    by_cases hn : n' = g.next
    · subst hn
      simp [state, Registry.insert, State.assign]
    · cases hr' : g.find n' with
      | none => simp [state, Registry.insert, State.assign, hn, hr']
      | some r' =>
        have hne : r' ≠ r := fun heq => hfresh n' (heq ▸ hr')
        simp [state, Registry.insert, State.assign, hn, hr', hne]
  · cases hp' : g.primary with
    | none => simp [state, Registry.insert, State.assign, hp']
    | some p =>
      have hne : p ≠ r := fun heq => hp (heq ▸ hp')
      simp [state, Registry.insert, State.assign, hp', hne]
  · intro n' r' hr'
    by_cases hn : n' = g.next
    · subst hn
      rw [hnew hr']
      exact Function.update_self _ _ _
    · obtain ⟨hr', hne⟩ := hold hn hr'
      exact (Function.update_of_ne hne _ _).trans (h.number_eq hr')
  · intro r'
    by_cases hr' : r' = r
    · subst hr'
      simp [Registry.insert, hp, hst]
    · simp only [Registry.insert, Function.update_of_ne hr', h.primary_iff]
      refine and_congr_left fun _ => ?_
      by_cases hn : g.number r' = g.next
      · rw [hn, Function.update_self]
        refine iff_of_false ?_ ?_
        · intro hfound
          exact Int.lt_irrefl _ (h.lt_next hfound)
        · exact fun hc => hr' (Option.some.inj hc).symm
      · rw [Function.update_of_ne hn]
  · intro n' r' hr'
    by_cases hn : n' = g.next
    · subst hn
      exact Int.lt_succ _
    · exact Int.lt_add_one_of_le (Int.le_of_lt (h.lt_next (hold hn hr').1))

/-- A new object comes to the addition of the lifecycle. -/
theorem Wellformed.add (h : g.Wellformed) (hfresh : ∀ n, g.find n ≠ some r) (status : Status) :
    (g.add r status).state = g.state.add status ∧ (g.add r status).Wellformed := by
  unfold Registry.add
  by_cases hst : status = .primary
  · subst hst
    obtain ⟨hstate, hwell⟩ := h.insert hfresh .active nofun
    have hfound : (g.insert r .active).find g.next = some r := Function.update_self _ _ _
    obtain ⟨hprimary, hwell⟩ := hwell.makePrimary hfound
    rw [if_pos rfl, hprimary, hstate, State.add_primary]
    exact ⟨rfl, hwell⟩
  · obtain ⟨hstate, hwell⟩ := h.insert hfresh status hst
    rw [if_neg hst, hstate]
    unfold State.add
    rw [if_neg hst]
    exact ⟨rfl, hwell⟩

end Writes

/-! ## The operations -/

/-- What an operation on the registry comes to: the lifecycle refuses it when the registry does, and else both take the same step. -/
def Refines (g' : Option (Registry Ref)) (t : Option State) : Prop :=
  g'.map state = t ∧ ∀ g'' ∈ g', g''.Wellformed

def revoke (g : Registry Ref) (n : Int) : Option (Registry Ref) :=
  match g.find n with
  | none => none
  | some r =>
    match g.status r with
    | .inactive => some (g.remove n)
    | _ => none

theorem Wellformed.revoke {g : Registry Ref} (h : g.Wellformed) (n : Int) : Refines (g.revoke n) (g.state.revoke n) := by
  unfold Registry.revoke State.revoke
  cases hr : g.find n with
  | none =>
    rw [status_state_of_none hr]
    exact ⟨rfl, nofun⟩
  | some r =>
    rw [status_state hr]
    dsimp only
    cases hst : g.status r with
    | inactive =>
      obtain ⟨hstate, hwell⟩ := h.remove hr (by simp [hst])
      exact ⟨congrArg some hstate, fun _ hg => Option.some.inj hg ▸ hwell⟩
    | primary => exact ⟨rfl, nofun⟩
    | active => exact ⟨rfl, nofun⟩
    | unknown => exact ⟨rfl, nofun⟩

section Operations

variable [DecidableEq Ref]

def promote (g : Registry Ref) (n : Int) : Option (Registry Ref) :=
  match g.find n with
  | none => none
  | some r =>
    match g.status r with
    | .active => some (g.makePrimary r)
    | .inactive => some (g.setStatus r .active)
    | _ => none

def demote (g : Registry Ref) (n : Int) : Option (Registry Ref) :=
  match g.find n with
  | none => none
  | some r =>
    match g.status r with
    | .primary => some (g.clearPrimary r)
    | .active => some (g.setStatus r .inactive)
    | _ => none

variable {g : Registry Ref}

theorem Wellformed.promote (h : g.Wellformed) (n : Int) : Refines (g.promote n) (g.state.promote n) := by
  unfold Registry.promote State.promote
  cases hr : g.find n with
  | none =>
    rw [status_state_of_none hr]
    exact ⟨rfl, nofun⟩
  | some r =>
    rw [status_state hr]
    dsimp only
    cases hst : g.status r with
    | primary => exact ⟨rfl, nofun⟩
    | unknown => exact ⟨rfl, nofun⟩
    | active =>
      obtain ⟨hstate, hwell⟩ := h.makePrimary hr
      exact ⟨congrArg some hstate, fun _ hg => Option.some.inj hg ▸ hwell⟩
    | inactive =>
      obtain ⟨hstate, hwell⟩ := h.setStatus hr (by simp [hst]) .active nofun
      exact ⟨congrArg some hstate, fun _ hg => Option.some.inj hg ▸ hwell⟩

theorem Wellformed.demote (h : g.Wellformed) (n : Int) : Refines (g.demote n) (g.state.demote n) := by
  unfold Registry.demote State.demote
  cases hr : g.find n with
  | none =>
    rw [status_state_of_none hr]
    exact ⟨rfl, nofun⟩
  | some r =>
    rw [status_state hr]
    dsimp only
    cases hst : g.status r with
    | primary =>
      obtain ⟨hstate, hwell⟩ := h.clearPrimary hr hst
      exact ⟨congrArg some hstate, fun _ hg => Option.some.inj hg ▸ hwell⟩
    | active =>
      obtain ⟨hstate, hwell⟩ := h.setStatus hr (by simp [hst]) .inactive nofun
      exact ⟨congrArg some hstate, fun _ hg => Option.some.inj hg ▸ hwell⟩
    | inactive => exact ⟨rfl, nofun⟩
    | unknown => exact ⟨rfl, nofun⟩

end Operations

end Registry

end Lifecycle
