import Keyczar.Java.GenericLoad
import Keyczar.Lib.Lifecycle
import Mathlib.Data.List.Nodup

/-!
# What the operations of `GenericKeyczar` do

The four operations refine the lifecycle of the versions: a call throws exactly when the lifecycle refuses it, and then nothing has
changed.
-/

namespace Java

/-- The status of a version in its lifecycle; it is unknown when it is `null`. -/
def KeyStatus.lifecycle : Option KeyStatus → Lifecycle.Status
  | some .primary => .primary
  | some .active => .active
  | some .inactive => .inactive
  | none => .unknown

theorem KeyStatus.lifecycle_eq_primary_iff (status : Option KeyStatus) :
    KeyStatus.lifecycle status = .primary ↔ status = some .primary := by
  rcases status with _ | _ | _ | _ <;> decide

/-- A write to the status of an object. -/
theorem status_setStatus (heap : ObjectHeap VersionObject) (r r' : Ref) (status : KeyStatus) :
    ((setStatus heap r status).object r').status = if r' = r then some status else (heap.object r').status := by
  unfold setStatus
  rw [ObjectHeap.object_modify]
  split <;> rfl

theorem status_setStatusOfSome (heap : ObjectHeap VersionObject) (r : Option Ref) (r' : Ref) (status : KeyStatus) :
    ((setStatusOfSome heap r status).object r').status = if r = some r' then some status else (heap.object r').status := by
  cases r with
  | none => rfl
  | some r =>
    unfold setStatusOfSome
    rw [status_setStatus]
    simp [eq_comm]

@[simp] theorem versionNumber_setStatus (heap : ObjectHeap VersionObject) (r r' : Ref) (status : KeyStatus) :
    ((setStatus heap r status).object r').versionNumber = (heap.object r').versionNumber :=
  heap.field_modify r r' VersionObject.versionNumber fun _ => rfl

@[simp] theorem versionNumber_setStatusOfSome (heap : ObjectHeap VersionObject) (r : Option Ref) (r' : Ref) (status : KeyStatus) :
    ((setStatusOfSome heap r status).object r').versionNumber = (heap.object r').versionNumber := by
  cases r with
  | none => rfl
  | some r => exact versionNumber_setStatus heap r r' status

@[simp] theorem next_setStatus (heap : ObjectHeap VersionObject) (r : Ref) (status : KeyStatus) :
    (setStatus heap r status).next = heap.next := rfl

@[simp] theorem next_setStatusOfSome (heap : ObjectHeap VersionObject) (r : Option Ref) (status : KeyStatus) :
    (setStatusOfSome heap r status).next = heap.next := by
  cases r <;> rfl

namespace GenericKeyczar

variable {P : Primitives}

/-! ## What holds between two calls -/

/-- The list and the map of the metadata hold the same versions, with distinct numbers, and each has a key. -/
structure Structured (z : GenericKeyczar) : Prop where
  lt : ∀ r ∈ z.getVersions, r < z.heap.next
  listed : ∀ r ∈ z.kmd.versions, r ∈ z.getVersions
  map_iff : ∀ n r, z.kmd.versionMap n = some r ↔ r ∈ z.kmd.versions ∧ z.number r = n
  nodup : z.numbers.Nodup
  versions_nodup : (z.kmd.versions.map z.number).Nodup

/-- And the primary version is the one with that status. -/
structure Consistent (z : GenericKeyczar) : Prop extends Structured z where
  primary_iff : ∀ r, z.primaryVersion = some r ↔ r ∈ z.kmd.versions ∧ z.status r = some .primary

/-- The lifecycle of the versions. -/
def lifecycle (z : GenericKeyczar) : Lifecycle.State where
  status n := (z.kmd.versionMap n).map fun r => KeyStatus.lifecycle (z.status r)
  primary := z.primaryVersion.map z.number
  next := z.maxVersion + 1

theorem status_lifecycle {z : GenericKeyczar} {n : Int} {r : Ref} (h : z.kmd.versionMap n = some r) :
    z.lifecycle.status n = some (KeyStatus.lifecycle (z.status r)) := by
  unfold lifecycle
  dsimp only
  rw [h]
  rfl

theorem status_lifecycle_of_none {z : GenericKeyczar} {n : Int} (h : z.kmd.versionMap n = none) : z.lifecycle.status n = none := by
  unfold lifecycle
  dsimp only
  rw [h]
  rfl

theorem le_maxVersion {z : GenericKeyczar} {r : Ref} (h : r ∈ z.getVersions) : z.number r ≤ z.maxVersion :=
  (Lifecycle.le_foldl_max z.number z.getVersions 0).2 r h

theorem Consistent.sound {z : GenericKeyczar} (h : Consistent z) : Lifecycle.Sound z.lifecycle := by
  refine ⟨?_, ?_⟩
  · intro n
    show z.primaryVersion.map z.number = some n ↔ (z.kmd.versionMap n).map (fun r => KeyStatus.lifecycle (z.status r)) = some .primary
    rw [Option.map_eq_some_iff, Option.map_eq_some_iff]
    constructor
    · rintro ⟨r, hp, hn⟩
      obtain ⟨hr, hst⟩ := (h.primary_iff r).mp hp
      exact ⟨r, (h.map_iff n r).mpr ⟨hr, hn⟩, (KeyStatus.lifecycle_eq_primary_iff _).mpr hst⟩
    · rintro ⟨r, hm, hst⟩
      obtain ⟨hr, hn⟩ := (h.map_iff n r).mp hm
      exact ⟨r, (h.primary_iff r).mpr ⟨hr, (KeyStatus.lifecycle_eq_primary_iff _).mp hst⟩, hn⟩
  · intro n hn
    show n < z.maxVersion + 1
    cases hm : z.kmd.versionMap n with
    | none => exact absurd (status_lifecycle_of_none hm) hn
    | some r =>
      obtain ⟨hr, hnum⟩ := (h.map_iff n r).mp hm
      have := le_maxVersion (h.listed r hr)
      omega

/-! ## Statuses -/

/-- Only statuses and the primary version have changed. -/
structure StatusChange (z z' : GenericKeyczar) : Prop where
  kmd_eq : z'.kmd = z.kmd
  versionMap_eq : z'.versionMap = z.versionMap
  hashMap_eq : z'.hashMap = z.hashMap
  next_eq : z'.heap.next = z.heap.next
  number_eq : ∀ r, z'.number r = z.number r

theorem StatusChange.numbers_eq {z z' : GenericKeyczar} (h : StatusChange z z') : z'.numbers = z.numbers := by
  unfold numbers getVersions
  rw [h.versionMap_eq]
  exact List.map_congr_left fun r _ => h.number_eq r

theorem StatusChange.maxVersion_eq {z z' : GenericKeyczar} (h : StatusChange z z') : z'.maxVersion = z.maxVersion := by
  unfold maxVersion getVersions
  rw [h.versionMap_eq, funext h.number_eq]

theorem StatusChange.structured {z z' : GenericKeyczar} (h : StatusChange z z') (hz : Structured z) : Structured z' := by
  have hversions : z'.getVersions = z.getVersions := congrArg (List.map Prod.fst) h.versionMap_eq
  refine ⟨?_, ?_, ?_, ?_, ?_⟩
  · rw [hversions, h.next_eq]
    exact hz.lt
  · rw [hversions, h.kmd_eq]
    exact hz.listed
  · intro n r
    rw [h.kmd_eq, h.number_eq]
    exact hz.map_iff n r
  · rw [h.numbers_eq]
    exact hz.nodup
  · rw [h.kmd_eq, funext h.number_eq]
    exact hz.versions_nodup

/-- The lifecycle after a change of statuses, number by number. -/
theorem StatusChange.lifecycle_eq {z z' : GenericKeyczar} (h : StatusChange z z') {t : Lifecycle.State}
    (hstatus : ∀ n r, z.kmd.versionMap n = some r → t.status n = some (KeyStatus.lifecycle (z'.status r)))
    (hnone : ∀ n, z.kmd.versionMap n = none → t.status n = none) (hprimary : z'.primaryVersion.map z.number = t.primary)
    (hnext : t.next = z.maxVersion + 1) : z'.lifecycle = t := by
  refine Lifecycle.State.ext ?_ ?_ ?_
  · funext n
    cases hm : z.kmd.versionMap n with
    | none =>
      rw [hnone n hm]
      exact status_lifecycle_of_none (by rw [h.kmd_eq]; exact hm)
    | some r =>
      rw [hstatus n r hm]
      exact status_lifecycle (by rw [h.kmd_eq]; exact hm)
  · show z'.primaryVersion.map z'.number = t.primary
    rw [funext h.number_eq]
    exact hprimary
  · show z'.maxVersion + 1 = t.next
    rw [h.maxVersion_eq, hnext]

/-- The same, when a lifecycle changes at the number of one version. -/
theorem StatusChange.lifecycle_update {z z' : GenericKeyczar} (h : StatusChange z z') (hz : Structured z) {n : Int} {r : Ref}
    (hr : z.kmd.versionMap n = some r) {t : Lifecycle.State} {f : Int → Option Lifecycle.Status}
    (hstatus : t.status = Function.update f n (some (KeyStatus.lifecycle (z'.status r))))
    (hother : ∀ n' r', z.kmd.versionMap n' = some r' → r' ≠ r → f n' = some (KeyStatus.lifecycle (z'.status r')))
    (hnone : ∀ n', z.kmd.versionMap n' = none → f n' = none) (hprimary : z'.primaryVersion.map z.number = t.primary)
    (hnext : t.next = z.maxVersion + 1) : z'.lifecycle = t := by
  obtain ⟨-, hn⟩ := (hz.map_iff n r).mp hr
  refine h.lifecycle_eq ?_ ?_ hprimary hnext
  · intro n' r' hr'
    rw [hstatus]
    by_cases heq : n' = n
    · subst heq
      rw [hr] at hr'
      cases hr'
      exact Function.update_self ..
    · have hne : r' ≠ r := by
        rintro rfl
        exact heq (((hz.map_iff n' r').mp hr').2.symm.trans hn)
      rw [Function.update_of_ne heq]
      exact hother n' r' hr' hne
  · intro n' hnone'
    have heq : n' ≠ n := by
      rintro rfl
      rw [hnone'] at hr
      cases hr
    rw [hstatus, Function.update_of_ne heq]
    exact hnone n' hnone'

theorem statusChange_setStatus (z : GenericKeyczar) (r : Ref) (status : KeyStatus) (primaryVersion : Option Ref) :
    StatusChange z { z with heap := setStatus z.heap r status, primaryVersion } :=
  ⟨rfl, rfl, rfl, rfl, fun r' => versionNumber_setStatus z.heap r r' status⟩

/-- One status is assigned to a version that is not primary, and it is not made so. -/
theorem Consistent.setStatus {z : GenericKeyczar} (h : Consistent z) {n : Int} {r : Ref} (hr : z.kmd.versionMap n = some r)
    (hold : z.status r ≠ some .primary) {status : KeyStatus} (hnew : status ≠ .primary) :
    ({ z with heap := setStatus z.heap r status } : GenericKeyczar).lifecycle = z.lifecycle.assign n (KeyStatus.lifecycle (some status)) ∧
    Consistent { z with heap := setStatus z.heap r status } := by
  have hchange := statusChange_setStatus z r status z.primaryVersion
  have hstatus : ∀ r', ((Java.setStatus z.heap r status).object r').status = if r' = r then some status else z.status r' :=
    fun r' => status_setStatus z.heap r r' status
  refine ⟨hchange.lifecycle_update h.toStructured hr (f := z.lifecycle.status) ?_ ?_ (fun _ => status_lifecycle_of_none) rfl rfl,
    hchange.structured h.toStructured, ?_⟩
  · show Function.update z.lifecycle.status n _ =
      Function.update _ n (some (KeyStatus.lifecycle ((Java.setStatus z.heap r status).object r).status))
    rw [hstatus, if_pos rfl]
  · intro n' r' hr' hne
    show _ = some (KeyStatus.lifecycle ((Java.setStatus z.heap r status).object r').status)
    rw [hstatus, if_neg hne]
    exact status_lifecycle hr'
  · intro r'
    show z.primaryVersion = some r' ↔ r' ∈ z.kmd.versions ∧ ((Java.setStatus z.heap r status).object r').status = some .primary
    rw [h.primary_iff, hstatus]
    by_cases hr' : r' = r
    · subst hr'
      rw [if_pos rfl]
      exact iff_of_false (fun hc => hold hc.2) fun hc => hnew (Option.some.inj hc.2)
    · rw [if_neg hr']

theorem getVersion_eq_ok {z : GenericKeyczar} {n : Int} {r : Ref} (h : z.kmd.versionMap n = some r) : z.getVersion n = .ok r := by
  unfold getVersion
  rw [h]

theorem getVersion_eq_error {z : GenericKeyczar} {n : Int} (h : z.kmd.versionMap n = none) :
    z.getVersion n = .error (.keyczar (.noSuchVersion n)) := by
  unfold getVersion
  rw [h]

/-- The active version that is promoted becomes the primary one. -/
theorem Consistent.makePrimary {z : GenericKeyczar} (h : Consistent z) {n : Int} {r : Ref} (hr : z.kmd.versionMap n = some r)
    (hold : z.status r = some .active) :
    let z' : GenericKeyczar := { z with
      heap := setStatusOfSome (Java.setStatus z.heap r .primary) z.primaryVersion .active, primaryVersion := some r }
    z'.lifecycle = z.lifecycle.makePrimary n ∧ Consistent z' := by
  intro z'
  obtain ⟨hmem, hn⟩ := (h.map_iff n r).mp hr
  have hother : z.primaryVersion ≠ some r := by
    intro hp
    have := ((h.primary_iff r).mp hp).2
    rw [hold] at this
    cases this
  have hchange : StatusChange z z' := by
    refine ⟨rfl, rfl, rfl, ?_, ?_⟩
    · show (setStatusOfSome (Java.setStatus z.heap r .primary) z.primaryVersion .active).next = z.heap.next
      rw [next_setStatusOfSome, next_setStatus]
    · intro r'
      show ((setStatusOfSome (Java.setStatus z.heap r .primary) z.primaryVersion .active).object r').versionNumber = _
      rw [versionNumber_setStatusOfSome, versionNumber_setStatus]
      rfl
  have hstatus : ∀ r', z'.status r' =
      if r' = r then some .primary else if z.primaryVersion = some r' then some .active else z.status r' := by
    intro r'
    show ((setStatusOfSome (Java.setStatus z.heap r .primary) z.primaryVersion .active).object r').status = _
    rw [status_setStatusOfSome, status_setStatus]
    by_cases hr' : r' = r
    · subst hr'
      rw [if_neg hother, if_pos rfl, if_pos rfl]
    · rw [if_neg hr', if_neg hr']
      rfl
  refine ⟨hchange.lifecycle_update h.toStructured hr (f := z.lifecycle.release.status) ?_ ?_ ?_ ?_ ?_,
    hchange.structured h.toStructured, ?_⟩
  · rw [hstatus, if_pos rfl]
    rfl
  · intro n' r' hr' hne
    obtain ⟨hmem', -⟩ := (h.map_iff n' r').mp hr'
    have hiff : z.lifecycle.primary = some n' ↔ z.primaryVersion = some r' := by
      rw [h.sound.primary_iff, status_lifecycle hr', Option.some_inj, KeyStatus.lifecycle_eq_primary_iff, h.primary_iff]
      exact ⟨fun hst => ⟨hmem', hst⟩, fun hc => hc.2⟩
    rw [hstatus, if_neg hne, Lifecycle.Sound.status_release]
    by_cases hp : z.primaryVersion = some r'
    · rw [if_pos hp, if_pos (hiff.mpr hp)]
      rfl
    · rw [if_neg hp, if_neg fun hc => hp (hiff.mp hc)]
      exact status_lifecycle hr'
  · intro n' hnone
    rw [Lifecycle.Sound.status_release, if_neg]
    · exact status_lifecycle_of_none hnone
    · rw [h.sound.primary_iff, status_lifecycle_of_none hnone]
      exact nofun
  · show (some r).map z.number = some n
    rw [← hn]
    rfl
  · exact Lifecycle.Sound.next_release z.lifecycle
  · intro r'
    rw [hstatus]
    show some r = some r' ↔ r' ∈ z.kmd.versions ∧ _
    by_cases hr' : r' = r
    · subst hr'
      rw [if_pos rfl]
      exact iff_of_true rfl ⟨hmem, rfl⟩
    · rw [if_neg hr']
      refine iff_of_false (fun hc => hr' (Option.some.inj hc).symm) ?_
      rintro ⟨hmem', hst⟩
      split at hst
      · cases hst
      · rename_i hp
        exact hp ((h.primary_iff r').mpr ⟨hmem', hst⟩)

/-- `promote` refines the promotion of the lifecycle: it throws exactly when that is refused. -/
theorem Consistent.promote {z : GenericKeyczar} (h : Consistent z) (n : Int) :
    match z.lifecycle.promote n with
    | some t => (z.promote n).1 = .ok () ∧ (z.promote n).2.lifecycle = t ∧ Consistent (z.promote n).2
    | none => ∃ e, z.promote n = (.error e, z) := by
  unfold Lifecycle.State.promote GenericKeyczar.promote
  cases hm : z.kmd.versionMap n with
  | none =>
    rw [status_lifecycle_of_none hm, getVersion_eq_error hm]
    exact ⟨_, rfl⟩
  | some r =>
    rw [status_lifecycle hm, getVersion_eq_ok hm]
    dsimp only
    cases hst : z.status r with
    | none => exact ⟨_, rfl⟩
    | some status =>
      cases status with
      | primary => exact ⟨_, rfl⟩
      | active => exact ⟨rfl, h.makePrimary hm hst⟩
      | inactive =>
        have hne : z.status r ≠ some .primary := by
          rw [hst]
          decide
        exact ⟨rfl, h.setStatus hm hne (by decide)⟩

/-- The primary version that is demoted leaves none behind. -/
theorem Consistent.clearPrimary {z : GenericKeyczar} (h : Consistent z) {n : Int} {r : Ref} (hr : z.kmd.versionMap n = some r)
    (hold : z.status r = some .primary) :
    let z' : GenericKeyczar := { z with heap := Java.setStatus z.heap r .active, primaryVersion := none }
    z'.lifecycle = { z.lifecycle.assign n .active with primary := none } ∧ Consistent z' := by
  intro z'
  obtain ⟨hmem, hn⟩ := (h.map_iff n r).mp hr
  have hp := (h.primary_iff r).mpr ⟨hmem, hold⟩
  have hchange : StatusChange z z' := statusChange_setStatus z r .active none
  have hstatus : ∀ r', z'.status r' = if r' = r then some .active else z.status r' := fun r' => status_setStatus z.heap r r' .active
  refine ⟨hchange.lifecycle_update h.toStructured hr (f := z.lifecycle.status) ?_ ?_ (fun _ => status_lifecycle_of_none) rfl rfl,
    hchange.structured h.toStructured, ?_⟩
  · rw [hstatus, if_pos rfl]
    rfl
  · intro n' r' hr' hne
    rw [hstatus, if_neg hne]
    exact status_lifecycle hr'
  · intro r'
    show none = some r' ↔ r' ∈ z.kmd.versions ∧ z'.status r' = some .primary
    rw [hstatus]
    refine iff_of_false nofun ?_
    rintro ⟨hmem', hst⟩
    split at hst
    · cases hst
    · rename_i hne
      have hp' := (h.primary_iff r').mpr ⟨hmem', hst⟩
      rw [hp] at hp'
      exact hne (Option.some.inj hp').symm

/-- `demote` refines the demotion of the lifecycle. -/
theorem Consistent.demote {z : GenericKeyczar} (h : Consistent z) (n : Int) :
    match z.lifecycle.demote n with
    | some t => (z.demote n).1 = .ok () ∧ (z.demote n).2.lifecycle = t ∧ Consistent (z.demote n).2
    | none => ∃ e, z.demote n = (.error e, z) := by
  unfold Lifecycle.State.demote GenericKeyczar.demote
  cases hm : z.kmd.versionMap n with
  | none =>
    rw [status_lifecycle_of_none hm, getVersion_eq_error hm]
    exact ⟨_, rfl⟩
  | some r =>
    rw [status_lifecycle hm, getVersion_eq_ok hm]
    dsimp only
    cases hst : z.status r with
    | none => exact ⟨_, rfl⟩
    | some status =>
      cases status with
      | primary => exact ⟨rfl, h.clearPrimary hm hst⟩
      | active =>
        have hne : z.status r ≠ some .primary := by
          rw [hst]
          decide
        exact ⟨rfl, h.setStatus hm hne (by decide)⟩
      | inactive => exact ⟨_, rfl⟩

/-! ## Revoking -/

/-- Of the versions with the number of one of them, there is that one to remove. -/
theorem Structured.mem_removeVersion {z : GenericKeyczar} (h : Structured z) {n : Int} {r : Ref} (hr : z.kmd.versionMap n = some r)
    (r' : Ref) :
    r' ∈ z.kmd.versions.eraseP (fun r' => (z.heap.object r').versionNumber = (z.heap.object r).versionNumber) ↔
      r' ∈ z.kmd.versions ∧ z.number r' ≠ n := by
  obtain ⟨hmem, hn⟩ := (h.map_iff n r).mp hr
  obtain ⟨a, l₁, l₂, -, ha, hsplit, herase⟩ := List.exists_of_eraseP hmem
    (p := fun r' => (z.heap.object r').versionNumber = (z.heap.object r).versionNumber) (decide_eq_true rfl)
  have hna : z.number a = n := (of_decide_eq_true ha).trans hn
  have hnodup := h.versions_nodup
  rw [hsplit, List.map_append, List.map_cons, List.nodup_middle, List.nodup_cons, ← List.map_append] at hnodup
  have hrest : ∀ r' ∈ l₁ ++ l₂, z.number r' ≠ n := by
    intro r' hr' heq
    refine hnodup.1 (List.mem_map.mpr ⟨r', hr', ?_⟩)
    rw [heq, hna]
  rw [herase, hsplit]
  constructor
  · intro hr'
    refine ⟨?_, hrest r' hr'⟩
    rcases List.mem_append.mp hr' with h₁ | h₂
    · exact List.mem_append_left _ h₁
    · exact List.mem_append_right _ (List.mem_cons_of_mem _ h₂)
  · rintro ⟨hr', hne⟩
    rcases List.mem_append.mp hr' with h₁ | h₂
    · exact List.mem_append_left _ h₁
    · rcases List.mem_cons.mp h₂ with rfl | h₂
      · exact absurd hna hne
      · exact List.mem_append_right _ h₂

/-- The inactive version that is revoked leaves the list and the map of the metadata. -/
theorem Consistent.removeVersion {z : GenericKeyczar} (h : Consistent z) {n : Int} {r : Ref} (hr : z.kmd.versionMap n = some r)
    (hst : z.status r = some .inactive) :
    let z' : GenericKeyczar := { z with kmd := (z.kmd.removeVersion z.heap n).2 }
    z'.lifecycle = { z.lifecycle with status := Function.update z.lifecycle.status n none } ∧ Consistent z' := by
  intro z'
  have hkmd : z'.kmd = { z.kmd with
      versions := z.kmd.versions.eraseP fun r' => (z.heap.object r').versionNumber = (z.heap.object r).versionNumber
      versionMap := Function.update z.kmd.versionMap n none } := by
    show (z.kmd.removeVersion z.heap n).2 = _
    unfold MetadataObject.removeVersion
    rw [hr]
  have hmem := h.toStructured.mem_removeVersion hr
  refine ⟨Lifecycle.State.ext ?_ rfl rfl, ⟨?_, ?_, ?_, ?_, ?_⟩, ?_⟩
  · funext n'
    show (z'.kmd.versionMap n').map _ = Function.update z.lifecycle.status n none n'
    rw [hkmd]
    by_cases hn : n' = n
    · subst hn
      dsimp only
      rw [Function.update_self, Function.update_self]
      rfl
    · dsimp only
      rw [Function.update_of_ne hn, Function.update_of_ne hn]
      rfl
  · exact h.lt
  · intro r' hr'
    rw [hkmd] at hr'
    exact h.listed r' ((hmem r').mp hr').1
  · intro n' r'
    rw [hkmd]
    show Function.update z.kmd.versionMap n none n' = some r' ↔ _ ∧ z.number r' = n'
    rw [hmem]
    by_cases hn : n' = n
    · subst hn
      rw [Function.update_self]
      exact iff_of_false nofun fun hc => hc.1.2 hc.2
    · rw [Function.update_of_ne hn, h.map_iff]
      constructor
      · rintro ⟨hv, heq⟩
        exact ⟨⟨hv, by rw [heq]; exact hn⟩, heq⟩
      · rintro ⟨⟨hv, -⟩, heq⟩
        exact ⟨hv, heq⟩
  · exact h.nodup
  · rw [hkmd]
    exact h.versions_nodup.sublist (List.Sublist.map z.number (List.eraseP_sublist))
  · intro r'
    rw [hkmd]
    show z.primaryVersion = some r' ↔ _ ∧ z.status r' = some .primary
    rw [hmem, h.primary_iff]
    constructor
    · rintro ⟨hv, hp⟩
      refine ⟨⟨hv, ?_⟩, hp⟩
      intro hn
      have heq := (h.map_iff n r').mpr ⟨hv, hn⟩
      rw [hr] at heq
      cases heq
      rw [hst] at hp
      cases hp
    · rintro ⟨⟨hv, -⟩, hp⟩
      exact ⟨hv, hp⟩

/-- `revoke` refines the revocation of the lifecycle. -/
theorem Consistent.revoke {z : GenericKeyczar} (h : Consistent z) (n : Int) :
    match z.lifecycle.revoke n with
    | some t => (z.revoke n).1 = .ok () ∧ (z.revoke n).2.lifecycle = t ∧ Consistent (z.revoke n).2
    | none => ∃ e, z.revoke n = (.error e, z) := by
  unfold Lifecycle.State.revoke GenericKeyczar.revoke
  cases hm : z.kmd.versionMap n with
  | none =>
    rw [status_lifecycle_of_none hm, getVersion_eq_error hm]
    exact ⟨_, rfl⟩
  | some r =>
    rw [status_lifecycle hm, getVersion_eq_ok hm]
    dsimp only
    cases hst : z.status r with
    | none => exact ⟨_, rfl⟩
    | some status =>
      cases status with
      | primary => exact ⟨_, rfl⟩
      | active => exact ⟨_, rfl⟩
      | inactive => exact ⟨rfl, h.removeVersion hm hst⟩

/-! ## New versions -/

/-- The number that `addVersion` gives out. -/
def nextNumber (z : GenericKeyczar) : Int := toInt32 (z.maxVersion + 1)

theorem number_addVersionObject_self (z : GenericKeyczar) (status : Option KeyStatus) :
    (z.addVersionObject status).number z.heap.next = z.nextNumber := by
  unfold addVersionObject number
  split
  · simp [nextNumber]
  · simp [nextNumber]

theorem number_addVersionObject_of_lt {z : GenericKeyczar} {r : Ref} (hr : r < z.heap.next) (status : Option KeyStatus) :
    (z.addVersionObject status).number r = z.number r := by
  unfold addVersionObject number
  split
  · simp [ObjectHeap.object_alloc_of_lt hr]
  · simp [ObjectHeap.object_alloc_of_lt hr]

theorem next_addVersionObject (z : GenericKeyczar) (status : Option KeyStatus) :
    (z.addVersionObject status).heap.next = z.heap.next + 1 := by
  unfold addVersionObject
  split
  · simp
  · simp

theorem primaryVersion_addVersionObject (z : GenericKeyczar) (status : Option KeyStatus) :
    (z.addVersionObject status).primaryVersion = if status = some .primary then some z.heap.next else z.primaryVersion := by
  unfold addVersionObject
  split <;> rfl

/-- The old primary version is demoted exactly when the new one is primary. -/
theorem status_addVersionObject_of_lt {z : GenericKeyczar} {r : Ref} (hr : r < z.heap.next) (status : Option KeyStatus) :
    (z.addVersionObject status).status r =
      if status = some .primary ∧ z.primaryVersion = some r then some .active else z.status r := by
  unfold addVersionObject GenericKeyczar.status
  by_cases h : status = some .primary
  · simp [h, status_setStatusOfSome, ObjectHeap.object_alloc_of_lt hr]
  · simp [h, ObjectHeap.object_alloc_of_lt hr]

theorem status_addVersionObject_self {z : GenericKeyczar} (hp : z.primaryVersion ≠ some z.heap.next) (status : Option KeyStatus) :
    (z.addVersionObject status).status z.heap.next = status := by
  unfold addVersionObject GenericKeyczar.status
  by_cases h : status = some .primary
  · simp [h, status_setStatusOfSome, hp]
  · simp [h]

/-- A key set to which a version was added with its key. -/
structure NewVersion (P : Primitives) (z z' : GenericKeyczar) (status : Option KeyStatus) (key : KeyczarKey) : Prop where
  versions_eq : z'.kmd.versions = z.kmd.versions ++ [z.heap.next]
  map_eq : z'.kmd.versionMap = Function.update z.kmd.versionMap z.nextNumber (some z.heap.next)
  versionMap_eq : z'.versionMap = z.versionMap ++ [(z.heap.next, key)]
  hashMap_eq : ∀ hash, z'.hashMap hash = z.hashMap hash ++ if hash = key.hash P then [key] else []
  next_eq : z'.heap.next = z.heap.next + 1
  number_new : z'.number z.heap.next = z.nextNumber
  number_old : ∀ r, r < z.heap.next → z'.number r = z.number r
  status_new : z'.status z.heap.next = status
  status_old : ∀ r, r < z.heap.next →
    z'.status r = if status = some .primary ∧ z.primaryVersion = some r then some .active else z.status r
  primaryVersion_eq : z'.primaryVersion = if status = some .primary then some z.heap.next else z.primaryVersion

theorem Structured.newVersion {z : GenericKeyczar} (h : Structured z) (hp : z.primaryVersion ≠ some z.heap.next)
    (hfresh : z.nextNumber ∉ z.numbers) (status : Option KeyStatus) (key : KeyczarKey) :
    NewVersion P z (z.addVersion P status (some key)).2 status key := by
  have hnumber : ∀ r ∈ z.getVersions, (z.addVersionObject status).number r ≠ (z.addVersionObject status).number z.heap.next := by
    intro r hr
    rw [number_addVersionObject_self, number_addVersionObject_of_lt (h.lt r hr)]
    exact fun heq => hfresh (List.mem_map.mpr ⟨r, hr, heq⟩)
  have hkmd : (z.addVersionObject status).kmd = z.kmd := by
    unfold addVersionObject
    split <;> rfl
  have hmap : (z.addVersionObject status).versionMap = z.versionMap := by
    unfold addVersionObject
    split <;> rfl
  have hhash : (z.addVersionObject status).hashMap = z.hashMap := by
    unfold addVersionObject
    split <;> rfl
  have hnone : z.kmd.versionMap z.nextNumber = none := by
    by_contra hsome
    obtain ⟨r, hr⟩ := Option.ne_none_iff_exists'.mp hsome
    obtain ⟨hmem, hn⟩ := (h.map_iff _ _).mp hr
    exact hfresh (List.mem_map.mpr ⟨r, h.listed r hmem, hn⟩)
  have hadd : (z.kmd.addVersion z.nextNumber z.heap.next).2 = { z.kmd with
      versions := z.kmd.versions ++ [z.heap.next]
      versionMap := Function.update z.kmd.versionMap z.nextNumber (some z.heap.next) } := by
    unfold MetadataObject.addVersion
    rw [hnone]
    rfl
  have hkmd' : (z.addVersion P status (some key)).2.kmd = (z.kmd.addVersion z.nextNumber z.heap.next).2 := by
    show ((z.addVersionObject status).kmd.addVersion ((z.addVersionObject status).number z.heap.next) z.heap.next).2 = _
    rw [hkmd, number_addVersionObject_self]
  refine ⟨?_, ?_, ?_, ?_, next_addVersionObject z status, number_addVersionObject_self z status, ?_,
    status_addVersionObject_self hp status, ?_, primaryVersion_addVersionObject z status⟩
  · rw [hkmd', hadd]
  · rw [hkmd', hadd]
  · show putKey (z.addVersionObject status).number z.heap.next key (z.addVersionObject status).versionMap = _
    rw [hmap]
    refine putKey_of_new ?_
    intro entry hentry
    exact hnumber entry.1 (List.mem_map_of_mem hentry)
  · intro hash
    show (if hash = key.hash P then (z.addVersionObject status).hashMap hash ++ [key] else (z.addVersionObject status).hashMap hash) = _
    rw [hhash]
    split
    · rfl
    · rw [List.append_nil]
  · intro r hr
    exact number_addVersionObject_of_lt hr status
  · intro r hr
    exact status_addVersionObject_of_lt hr status

namespace NewVersion

variable {z z' : GenericKeyczar} {status : Option KeyStatus} {key : KeyczarKey}

theorem getVersions_eq (h : NewVersion P z z' status key) : z'.getVersions = z.getVersions ++ [z.heap.next] := by
  unfold getVersions
  rw [h.versionMap_eq, List.map_append]
  rfl

theorem numbers_eq (h : NewVersion P z z' status key) (hz : Structured z) : z'.numbers = z.numbers ++ [z.nextNumber] := by
  unfold numbers
  rw [h.getVersions_eq, List.map_append, List.map_singleton, h.number_new]
  congr 1
  exact List.map_congr_left fun r hr => h.number_old r (hz.lt r hr)

theorem structured (h : NewVersion P z z' status key) (hz : Structured z) (hfresh : z.nextNumber ∉ z.numbers) : Structured z' := by
  have hlt : ∀ r ∈ z.kmd.versions, r < z.heap.next := fun r hr => hz.lt r (hz.listed r hr)
  refine ⟨?_, ?_, ?_, ?_, ?_⟩
  · intro r hr
    rw [h.getVersions_eq, List.mem_append, List.mem_singleton] at hr
    rw [h.next_eq]
    rcases hr with hr | rfl
    · exact Nat.lt_succ_of_lt (hz.lt r hr)
    · exact Nat.lt_succ_self _
  · intro r hr
    rw [h.versions_eq, List.mem_append] at hr
    rw [h.getVersions_eq, List.mem_append]
    exact hr.imp_left (hz.listed r)
  · intro n r
    rw [h.map_eq, h.versions_eq, List.mem_append, List.mem_singleton]
    by_cases hn : n = z.nextNumber
    · subst hn
      rw [Function.update_self, Option.some_inj]
      constructor
      · rintro rfl
        exact ⟨Or.inr rfl, h.number_new⟩
      · rintro ⟨hr | rfl, heq⟩
        · rw [h.number_old r (hlt r hr)] at heq
          exact absurd (List.mem_map.mpr ⟨r, hz.listed r hr, heq⟩) hfresh
        · rfl
    · rw [Function.update_of_ne hn, hz.map_iff]
      constructor
      · rintro ⟨hr, heq⟩
        exact ⟨Or.inl hr, (h.number_old r (hlt r hr)).trans heq⟩
      · rintro ⟨hr | rfl, heq⟩
        · exact ⟨hr, (h.number_old r (hlt r hr)).symm.trans heq⟩
        · exact absurd (heq.symm.trans h.number_new) hn
  · rw [h.numbers_eq hz]
    exact List.nodup_append.mpr ⟨hz.nodup, List.nodup_singleton _, by
      intro n hn m hm heq
      rw [List.mem_singleton.mp hm] at heq
      exact hfresh (heq ▸ hn)⟩
  · rw [h.versions_eq, List.map_append, List.map_singleton, h.number_new]
    have hold : z.kmd.versions.map z'.number = z.kmd.versions.map z.number :=
      List.map_congr_left fun r hr => h.number_old r (hlt r hr)
    rw [hold]
    refine List.nodup_append.mpr ⟨hz.versions_nodup, List.nodup_singleton _, ?_⟩
    intro n hn m hm heq
    obtain ⟨r, hr, rfl⟩ := List.mem_map.mp hn
    rw [List.mem_singleton.mp hm] at heq
    exact hfresh (List.mem_map.mpr ⟨r, hz.listed r hr, heq⟩)

theorem consistent (h : NewVersion P z z' status key) (hz : Consistent z) (hfresh : z.nextNumber ∉ z.numbers) : Consistent z' := by
  have hlt : ∀ r ∈ z.kmd.versions, r < z.heap.next := fun r hr => hz.lt r (hz.listed r hr)
  refine ⟨h.structured hz.toStructured hfresh, ?_⟩
  intro r
  rw [h.primaryVersion_eq, h.versions_eq, List.mem_append, List.mem_singleton]
  by_cases hst : status = some .primary
  · rw [if_pos hst, Option.some_inj]
    constructor
    · rintro rfl
      exact ⟨Or.inr rfl, by rw [h.status_new]; exact hst⟩
    · rintro ⟨hr | rfl, hp⟩
      · rw [h.status_old r (hlt r hr)] at hp
        split at hp
        · cases hp
        · rename_i hnot
          exact absurd ⟨hst, (hz.primary_iff r).mpr ⟨hr, hp⟩⟩ hnot
      · rfl
  · rw [if_neg hst, hz.primary_iff]
    constructor
    · rintro ⟨hr, hp⟩
      refine ⟨Or.inl hr, ?_⟩
      rw [h.status_old r (hlt r hr), if_neg fun hc => hst hc.1]
      exact hp
    · rintro ⟨hr | rfl, hp⟩
      · rw [h.status_old r (hlt r hr), if_neg fun hc => hst hc.1] at hp
        exact ⟨hr, hp⟩
      · rw [h.status_new] at hp
        exact absurd hp hst

end NewVersion

theorem maxVersion_nonneg (z : GenericKeyczar) : 0 ≤ z.maxVersion := (Lifecycle.le_foldl_max z.number z.getVersions 0).1

/-- With room above the largest number, the next one is above all. -/
theorem nextNumber_of_lt {z : GenericKeyczar} (h : z.maxVersion + 1 < 2 ^ 31) : z.nextNumber = z.maxVersion + 1 := by
  have hpos := z.maxVersion_nonneg
  unfold nextNumber toInt32
  rw [Int.bmod_eq_of_le] <;> omega

theorem nextNumber_notMem_of_lt {z : GenericKeyczar} (h : z.maxVersion + 1 < 2 ^ 31) : z.nextNumber ∉ z.numbers := by
  rw [nextNumber_of_lt h]
  intro hmem
  obtain ⟨r, hr, heq⟩ := List.mem_map.mp hmem
  have := le_maxVersion hr
  omega

/-- The next number is in use only when the largest and the smallest number there can be are. -/
theorem nextNumber_notMem {z : GenericKeyczar} (hint : ∀ n ∈ z.numbers, n < 2 ^ 31)
    (h : ¬ (2 ^ 31 - 1 ∈ z.numbers ∧ -2 ^ 31 ∈ z.numbers)) : z.nextNumber ∉ z.numbers := by
  by_cases hroom : z.maxVersion + 1 < 2 ^ 31
  · exact nextNumber_notMem_of_lt hroom
  · rcases Lifecycle.foldl_max_mem z.number z.getVersions 0 with hzero | ⟨r, hr, heq⟩
    · rw [show z.maxVersion = 0 from hzero] at hroom
      omega
    · replace heq : z.number r = z.maxVersion := heq
      have hmem : z.number r ∈ z.numbers := List.mem_map_of_mem hr
      have hlt := hint _ hmem
      have hmax : z.maxVersion = 2 ^ 31 - 1 := by omega
      have hnext : z.nextNumber = -2 ^ 31 := by
        unfold nextNumber
        rw [hmax]
        decide
      rw [hnext]
      rw [heq, hmax] at hmem
      exact fun hmin => h ⟨hmem, hmin⟩

theorem nextNumber_lt (z : GenericKeyczar) : -2 ^ 31 ≤ z.nextNumber ∧ z.nextNumber < 2 ^ 31 := by
  unfold nextNumber toInt32
  have hle := Int.le_bmod (x := z.maxVersion + 1) (m := 2 ^ 32) (by decide)
  have hlt := Int.bmod_lt (x := z.maxVersion + 1) (m := 2 ^ 32) (by decide)
  omega

/-- An addition refines that of the lifecycle, while the numbers have room. -/
theorem NewVersion.lifecycle_eq {z z' : GenericKeyczar} {status : Option KeyStatus} {key : KeyczarKey}
    (h : NewVersion P z z' status key) (hz : Consistent z) (hroom : z.maxVersion + 1 < 2 ^ 31) :
    z'.lifecycle = z.lifecycle.add (KeyStatus.lifecycle status) := by
  have hlt : ∀ r ∈ z.kmd.versions, r < z.heap.next := fun r hr => hz.lt r (hz.listed r hr)
  have hnext : z.nextNumber = z.lifecycle.next := nextNumber_of_lt hroom
  have hold : ∀ n, n ≠ z.lifecycle.next → z'.lifecycle.status n =
      if status = some .primary ∧ z.lifecycle.primary = some n then some .active else z.lifecycle.status n := by
    intro n hn
    have hmap : z'.kmd.versionMap n = z.kmd.versionMap n := by
      rw [h.map_eq, Function.update_of_ne (by rw [hnext]; exact hn)]
    cases hm : z.kmd.versionMap n with
    | none =>
      rw [status_lifecycle_of_none (by rw [hmap]; exact hm), if_neg, status_lifecycle_of_none hm]
      rintro ⟨-, hp⟩
      rw [hz.sound.primary_iff, status_lifecycle_of_none hm] at hp
      cases hp
    | some r =>
      obtain ⟨hmem, hnum⟩ := (hz.map_iff n r).mp hm
      have hiff : z.lifecycle.primary = some n ↔ z.primaryVersion = some r := by
        rw [hz.sound.primary_iff, status_lifecycle hm, Option.some_inj, KeyStatus.lifecycle_eq_primary_iff, hz.primary_iff]
        exact ⟨fun hst => ⟨hmem, hst⟩, fun hc => hc.2⟩
      rw [status_lifecycle (by rw [hmap]; exact hm), h.status_old r (hlt r hmem)]
      by_cases hp : status = some .primary ∧ z.primaryVersion = some r
      · rw [if_pos hp, if_pos ⟨hp.1, hiff.mpr hp.2⟩]
        rfl
      · rw [if_neg hp, if_neg fun hc => hp ⟨hc.1, hiff.mp hc.2⟩]
        exact (status_lifecycle hm).symm
  have hnew : z'.lifecycle.status z.lifecycle.next = some (KeyStatus.lifecycle status) := by
    rw [status_lifecycle (r := z.heap.next) (by rw [h.map_eq, hnext, Function.update_self]), h.status_new]
  have hmax : z'.lifecycle.next = z.lifecycle.next + 1 := by
    show z'.maxVersion + 1 = z.maxVersion + 1 + 1
    have hfold : z'.maxVersion = if z.maxVersion < z.nextNumber then z.nextNumber else z.maxVersion := by
      unfold maxVersion
      rw [h.getVersions_eq, List.foldl_append, List.foldl_cons, List.foldl_nil, h.number_new]
      have hsame : z.getVersions.foldl (fun max r => if max < z'.number r then z'.number r else max) 0 =
          z.getVersions.foldl (fun max r => if max < z.number r then z.number r else max) 0 := by
        refine List.foldl_ext _ _ _ ?_
        intro m r hr
        rw [h.number_old r (hz.lt r hr)]
      rw [hsame]
    rw [hfold, nextNumber_of_lt hroom, if_pos (Int.lt_succ _)]
  have hprimary : z'.lifecycle.primary = if status = some .primary then some z.lifecycle.next else z.lifecycle.primary := by
    show z'.primaryVersion.map z'.number = _
    rw [h.primaryVersion_eq]
    split
    · rw [Option.map_some, h.number_new, hnext]
    · show z.primaryVersion.map z'.number = z.primaryVersion.map z.number
      cases hp : z.primaryVersion with
      | none => rfl
      | some r =>
        rw [Option.map_some, Option.map_some, h.number_old r (hlt r ((hz.primary_iff r).mp hp).1)]
  unfold Lifecycle.State.add
  by_cases hst : status = some .primary
  · rw [if_pos ((KeyStatus.lifecycle_eq_primary_iff status).mpr hst)]
    refine Lifecycle.State.ext ?_ ?_ hmax
    · funext n
      show z'.lifecycle.status n = Function.update z.lifecycle.release.status z.lifecycle.next (some .primary) n
      by_cases hn : n = z.lifecycle.next
      · subst hn
        rw [hnew, Function.update_self, hst]
        rfl
      · rw [hold n hn, Function.update_of_ne hn, Lifecycle.Sound.status_release]
        simp [hst]
    · rw [hprimary, if_pos hst]
      rfl
  · rw [if_neg fun hc => hst ((KeyStatus.lifecycle_eq_primary_iff status).mp hc)]
    refine Lifecycle.State.ext ?_ ?_ hmax
    · funext n
      show z'.lifecycle.status n = Function.update z.lifecycle.status z.lifecycle.next _ n
      by_cases hn : n = z.lifecycle.next
      · subst hn
        rw [hnew, Function.update_self]
      · rw [hold n hn, Function.update_of_ne hn, if_neg fun hc => hst hc.1]
    · rw [hprimary, if_neg hst]
      rfl

end GenericKeyczar

end Java
