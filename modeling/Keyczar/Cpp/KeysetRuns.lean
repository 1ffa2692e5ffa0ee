import Keyczar.Cpp.Keyset
import Keyczar.Lib.Lifecycle

/-!
# What the operations of a key set do

Each operation on the statuses refines the lifecycle of the versions and leaves the two maps of keys alone; an operation that adds
or removes a key changes the maps in one place. The keys of a set are kept under hashes that differ from key to key.
-/

namespace Cpp

/-- The status of a version in its lifecycle. -/
def KeyStatus.status : KeyStatus → Lifecycle.Status
  | .primary => .primary
  | .active => .active
  | .inactive => .inactive
  | .undefined => .unknown

theorem KeyStatus.status_eq_primary_iff (status : KeyStatus) : status.status = .primary ↔ status = .primary := by
  cases status <;> decide

namespace KeysetMetadata

/-- A change of status is seen at its version only. -/
theorem getVersion_setKeyStatus (m : KeysetMetadata) (n n' : Int) (status : KeyStatus) :
    (m.setKeyStatus n status).getVersion n' =
      if n' = n then (m.getVersion n).map fun v => { v with keyStatus := status } else m.getVersion n' := by
  unfold setKeyStatus
  cases hv : m.getVersion n with
  | none =>
    by_cases hn : n' = n
    · rw [if_pos hn, hn, hv]
      rfl
    · rw [if_neg hn]
  | some v => exact m.keyVersionsMap.find_insert n n' _

@[simp] theorem nextKeyVersionNumber_setKeyStatus (m : KeysetMetadata) (n : Int) (status : KeyStatus) :
    (m.setKeyStatus n status).nextKeyVersionNumber = m.nextKeyVersionNumber := by
  unfold setKeyStatus
  split <;> rfl

@[simp] theorem keyType_setKeyStatus (m : KeysetMetadata) (n : Int) (status : KeyStatus) :
    (m.setKeyStatus n status).keyType = m.keyType := by
  unfold setKeyStatus
  split <;> rfl

@[simp] theorem isSome_getVersion_setKeyStatus (m : KeysetMetadata) (n n' : Int) (status : KeyStatus) :
    ((m.setKeyStatus n status).getVersion n').isSome = (m.getVersion n').isSome := by
  rw [getVersion_setKeyStatus]
  by_cases hn : n' = n
  · rw [if_pos hn, hn, Option.isSome_map]
  · rw [if_neg hn]

end KeysetMetadata

namespace ManagedKeyset

variable {P : Primitives}

/-- The lifecycle of the versions of a key set. -/
def lifecycle (s : ManagedKeyset) : Lifecycle.State where
  status n := (s.metadata.getVersion n).map fun v => v.keyStatus.status
  primary := if s.primaryKeyVersionNumber = 0 then none else some s.primaryKeyVersionNumber
  next := s.metadata.nextKeyVersionNumber

theorem status_lifecycle_of_getVersion {s : ManagedKeyset} {n : Int} {v : KeyVersion} (hv : s.metadata.getVersion n = some v) :
    s.lifecycle.status n = some v.keyStatus.status := by
  unfold lifecycle
  dsimp only
  rw [hv]
  rfl

theorem status_lifecycle_of_none {s : ManagedKeyset} {n : Int} (hv : s.metadata.getVersion n = none) :
    s.lifecycle.status n = none := by
  unfold lifecycle
  dsimp only
  rw [hv]
  rfl

/-- The versions have positive numbers, and the lifecycle is sound. -/
structure Statuses (s : ManagedKeyset) : Prop where
  positive : ∀ {n v}, s.metadata.getVersion n = some v → 0 < n
  sound : Lifecycle.Sound s.lifecycle

/-- Only statuses have changed: the keys, the numbers of the versions and the next number are the same. -/
structure SameKeys (s s' : ManagedKeyset) : Prop where
  versionNumberMap_eq : s'.versionNumberMap = s.versionNumberMap
  hashMap_eq : s'.hashMap = s.hashMap
  next_eq : s'.metadata.nextKeyVersionNumber = s.metadata.nextKeyVersionNumber
  keyType_eq : s'.metadata.keyType = s.metadata.keyType
  isSome_getVersion : ∀ n, (s'.metadata.getVersion n).isSome = (s.metadata.getVersion n).isSome

theorem sameKeys_refl (s : ManagedKeyset) : SameKeys s s := ⟨rfl, rfl, rfl, rfl, fun _ => rfl⟩

theorem SameKeys.trans {s t u : ManagedKeyset} (h : SameKeys s t) (h' : SameKeys t u) : SameKeys s u :=
  ⟨h'.versionNumberMap_eq.trans h.versionNumberMap_eq, h'.hashMap_eq.trans h.hashMap_eq, h'.next_eq.trans h.next_eq,
    h'.keyType_eq.trans h.keyType_eq, fun n => (h'.isSome_getVersion n).trans (h.isSome_getVersion n)⟩

theorem SameKeys.positive {s s' : ManagedKeyset} (h : SameKeys s s') (hs : ∀ {n v}, s.metadata.getVersion n = some v → 0 < n)
    {n : Int} {v : KeyVersion} (hv : s'.metadata.getVersion n = some v) : 0 < n := by
  have hsome := h.isSome_getVersion n
  rw [hv] at hsome
  obtain ⟨w, hw⟩ := Option.isSome_iff_exists.mp hsome.symm
  exact hs hw

/-! ## Statuses -/

theorem sameKeys_setKeyStatus (s : ManagedKeyset) (n : Int) (status : KeyStatus) : SameKeys s (s.setKeyStatus n status) :=
  ⟨rfl, rfl, s.metadata.nextKeyVersionNumber_setKeyStatus n status, s.metadata.keyType_setKeyStatus n status,
    fun n' => s.metadata.isSome_getVersion_setKeyStatus n n' status⟩

/-- Whatever it answers, updating a status leaves the keys alone. -/
theorem sameKeys_updateKeyStatus (s : ManagedKeyset) (status : KeyStatus) (n : Int) :
    SameKeys s (s.updateKeyStatus status n).2 := by
  cases status with
  | primary =>
    unfold updateKeyStatus
    dsimp only
    split
    · exact sameKeys_refl s
    · have hrelease : SameKeys s
          (if s.getPrimaryKeyVersion.isSome then s.setKeyStatus s.primaryKeyVersionNumber .active else s) := by
        split
        · exact sameKeys_setKeyStatus s _ _
        · exact sameKeys_refl s
      refine hrelease.trans ?_
      have h := sameKeys_setKeyStatus
        { (if s.getPrimaryKeyVersion.isSome then s.setKeyStatus s.primaryKeyVersionNumber .active else s) with
          primaryKeyVersionNumber := n } n .primary
      exact ⟨h.versionNumberMap_eq, h.hashMap_eq, h.next_eq, h.keyType_eq, h.isSome_getVersion⟩
  | active => exact sameKeys_setKeyStatus s n .active
  | inactive => exact sameKeys_setKeyStatus s n .inactive
  | undefined => exact sameKeys_refl s

theorem lifecycle_setKeyStatus {s : ManagedKeyset} {n : Int} {v : KeyVersion} (hv : s.metadata.getVersion n = some v)
    (status : KeyStatus) : (s.setKeyStatus n status).lifecycle = s.lifecycle.assign n status.status := by
  refine Lifecycle.State.ext ?_ rfl (s.metadata.nextKeyVersionNumber_setKeyStatus n status)
  funext n'
  show ((s.metadata.setKeyStatus n status).getVersion n').map (fun v => v.keyStatus.status) =
    Function.update s.lifecycle.status n (some status.status) n'
  rw [KeysetMetadata.getVersion_setKeyStatus]
  by_cases hn : n' = n
  · subst hn
    rw [if_pos rfl, hv, Function.update_self]
    rfl
  · rw [if_neg hn, Function.update_of_ne hn]
    rfl

/-- Where the primary number points. -/
theorem Statuses.getPrimaryKeyVersion {s : ManagedKeyset} (h : Statuses s) :
    s.primaryKeyVersionNumber = 0 ∧ s.getPrimaryKeyVersion = none ∨
    s.primaryKeyVersionNumber ≠ 0 ∧ ∃ v, s.getPrimaryKeyVersion = some v ∧ v.keyStatus = .primary := by
  by_cases hp : s.primaryKeyVersionNumber = 0
  · refine Or.inl ⟨hp, ?_⟩
    unfold ManagedKeyset.getPrimaryKeyVersion
    cases hv : s.metadata.getVersion s.primaryKeyVersionNumber with
    | none => rfl
    | some v =>
      have := h.positive hv
      omega
  · refine Or.inr ⟨hp, ?_⟩
    have hst := (h.sound.primary_iff s.primaryKeyVersionNumber).mp (if_neg hp)
    unfold lifecycle at hst
    dsimp only at hst
    obtain ⟨v, hv, hs⟩ := Option.map_eq_some_iff.mp hst
    exact ⟨v, hv, (KeyStatus.status_eq_primary_iff _).mp hs⟩

/-- Making a version primary. -/
theorem Statuses.updateKeyStatus_primary {s : ManagedKeyset} (h : Statuses s) {n : Int} {v : KeyVersion}
    (hv : s.metadata.getVersion n = some v) :
    (s.updateKeyStatus .primary n).1 = true ∧ (s.updateKeyStatus .primary n).2.lifecycle = s.lifecycle.makePrimary n := by
  have hn : n ≠ 0 := by
    have := h.positive hv
    omega
  rcases h.getPrimaryKeyVersion with ⟨hp, hnone⟩ | ⟨hp, w, hw, hst⟩
  · have hrelease : s.lifecycle.release = s.lifecycle := by
      unfold Lifecycle.State.release lifecycle
      rw [if_pos hp]
    have hupdate : s.updateKeyStatus .primary n =
        (true, { s with primaryKeyVersionNumber := n }.setKeyStatus n .primary) := by
      unfold updateKeyStatus
      rw [hnone]
      simp [hp]
    rw [hupdate]
    refine ⟨rfl, ?_⟩
    have hv' : { s with primaryKeyVersionNumber := n }.metadata.getVersion n = some v := hv
    rw [lifecycle_setKeyStatus hv']
    unfold Lifecycle.State.makePrimary
    rw [hrelease]
    refine Lifecycle.State.ext rfl ?_ rfl
    exact if_neg hn
  · have hrelease : s.lifecycle.release =
        { s.lifecycle.assign s.primaryKeyVersionNumber .active with primary := none } := by
      unfold Lifecycle.State.release
      have hlp : s.lifecycle.primary = some s.primaryKeyVersionNumber := if_neg hp
      rw [hlp]
    have hupdate : s.updateKeyStatus .primary n =
        (true, { s.setKeyStatus s.primaryKeyVersionNumber .active with primaryKeyVersionNumber := n }.setKeyStatus n .primary) := by
      unfold updateKeyStatus
      rw [hw]
      simp
    rw [hupdate]
    refine ⟨rfl, ?_⟩
    have hsome := s.metadata.isSome_getVersion_setKeyStatus s.primaryKeyVersionNumber n .active
    rw [hv] at hsome
    obtain ⟨v', hv'⟩ := Option.isSome_iff_exists.mp hsome
    have hvn : { s.setKeyStatus s.primaryKeyVersionNumber .active with primaryKeyVersionNumber := n }.metadata.getVersion n =
        some v' := hv'
    rw [lifecycle_setKeyStatus hvn]
    unfold Lifecycle.State.makePrimary
    rw [hrelease]
    have hassign := lifecycle_setKeyStatus hw .active
    refine Lifecycle.State.ext ?_ ?_ ?_
    · exact congrArg (fun t => Function.update t n (some Lifecycle.Status.primary)) (congrArg Lifecycle.State.status hassign)
    · exact if_neg hn
    · exact s.metadata.nextKeyVersionNumber_setKeyStatus s.primaryKeyVersionNumber .active

/-- `PromoteKey` refines the promotion of the lifecycle: it answers `true` when that is not refused. -/
theorem Statuses.promoteKey {s : ManagedKeyset} (h : Statuses s) (n : Int) :
    match s.lifecycle.promote n with
    | some t => (s.promoteKey n).1 = true ∧ (s.promoteKey n).2.lifecycle = t
    | none => s.promoteKey n = (false, s) := by
  unfold Lifecycle.State.promote ManagedKeyset.promoteKey
  cases hv : s.metadata.getVersion n with
  | none =>
    rw [status_lifecycle_of_none hv]
    simp
  | some v =>
    rw [status_lifecycle_of_getVersion hv]
    have hpos : ¬ n ≤ 0 := not_le.mpr (h.positive hv)
    cases hst : v.keyStatus with
    | primary => simp [hpos, hst, KeyStatus.status]
    | undefined => simp [hpos, hst, KeyStatus.status]
    | inactive =>
      simp only [if_neg hpos, hst, KeyStatus.status]
      exact ⟨rfl, lifecycle_setKeyStatus hv .active⟩
    | active =>
      simp only [if_neg hpos, hst, KeyStatus.status]
      exact h.updateKeyStatus_primary hv

theorem sameKeys_promoteKey (s : ManagedKeyset) (n : Int) : SameKeys s (s.promoteKey n).2 := by
  unfold ManagedKeyset.promoteKey
  split
  · exact sameKeys_refl s
  · split
    · exact sameKeys_refl s
    · split
      · exact sameKeys_refl s
      · exact sameKeys_updateKeyStatus s _ n
      · exact sameKeys_updateKeyStatus s _ n
      · exact sameKeys_refl s

/-- `DemoteKey` refines the demotion of the lifecycle. -/
theorem Statuses.demoteKey {s : ManagedKeyset} (h : Statuses s) (n : Int) :
    match s.lifecycle.demote n with
    | some t => (s.demoteKey n).1 = true ∧ (s.demoteKey n).2.lifecycle = t
    | none => s.demoteKey n = (false, s) := by
  unfold Lifecycle.State.demote
  cases hv : s.metadata.getVersion n with
  | none =>
    rw [status_lifecycle_of_none hv]
    simp [ManagedKeyset.demoteKey, hv]
  | some v =>
    rw [status_lifecycle_of_getVersion hv]
    have hpos : ¬ n ≤ 0 := not_le.mpr (h.positive hv)
    cases hst : v.keyStatus with
    | inactive => simp [ManagedKeyset.demoteKey, hv, hpos, hst, KeyStatus.status]
    | undefined => simp [ManagedKeyset.demoteKey, hv, hpos, hst, KeyStatus.status]
    | active =>
      have hdemote : s.demoteKey n = (true, s.setKeyStatus n .inactive) := by
        simp [ManagedKeyset.demoteKey, hv, hpos, hst, ManagedKeyset.updateKeyStatus]
      rw [hdemote]
      exact ⟨rfl, lifecycle_setKeyStatus hv .inactive⟩
    | primary =>
      have hdemote : s.demoteKey n = (true, { s.setKeyStatus n .active with primaryKeyVersionNumber := 0 }) := by
        simp [ManagedKeyset.demoteKey, hv, hpos, hst, ManagedKeyset.updateKeyStatus]
      rw [hdemote]
      have hstatus := congrArg Lifecycle.State.status (lifecycle_setKeyStatus hv .active)
      have hprimary : ({ s.setKeyStatus n .active with primaryKeyVersionNumber := 0 } : ManagedKeyset).lifecycle.primary = none := by
        simp [lifecycle]
      refine ⟨rfl, Lifecycle.State.ext hstatus hprimary ?_⟩
      exact s.metadata.nextKeyVersionNumber_setKeyStatus n .active

theorem sameKeys_demoteKey (s : ManagedKeyset) (n : Int) : SameKeys s (s.demoteKey n).2 := by
  unfold ManagedKeyset.demoteKey
  split
  · exact sameKeys_refl s
  · split
    · exact sameKeys_refl s
    · split
      · have h := sameKeys_updateKeyStatus s .active n
        exact ⟨h.versionNumberMap_eq, h.hashMap_eq, h.next_eq, h.keyType_eq, h.isSome_getVersion⟩
      · exact sameKeys_updateKeyStatus s _ n
      · exact sameKeys_refl s
      · exact sameKeys_refl s

/-! ## Keys -/

/-- What the map of hashes holds after a key was added under its hash. -/
def hashMapWith (P : Primitives) (hashMap : Bytes → Option Key) (key : Key) (hash : Bytes) : Bytes → Option Key :=
  match key.buggyHash P with
  | .ok (some buggyHash) => Function.update (Function.update hashMap hash (some key)) buggyHash (some key)
  | _ => Function.update hashMap hash (some key)

/-- The state after a key was added. -/
def withKey (P : Primitives) (s : ManagedKeyset) (key : Key) (n : Int) (hash : Bytes) : ManagedKeyset :=
  { s with versionNumberMap := s.versionNumberMap.insert n key, hashMap := hashMapWith P s.hashMap key hash }

/-- `AddKey` of a key for a version that has none, under a hash that is not in use. It may still throw. -/
theorem addKey_new {s : ManagedKeyset} {key : Key} {n : Int} {hash : Bytes} (hpos : 0 < n)
    (hversion : (s.metadata.getVersion n).isSome) (hnew : s.getKey n = none) (hhash : key.hash P = some hash)
    (hfree : s.hashMap hash = none) :
    ∃ result, s.addKey P key n = (result, s.withKey P key n hash) ∧ (result = .ok true ∨ ∃ e, result = .error e) := by
  have hcond : ¬ (n ≤ 0 ∨ (s.metadata.getVersion n).isNone ∨ (s.versionNumberMap.find n).isSome) := by
    unfold getKey at hnew
    rw [hnew, ← Option.not_isSome, hversion]
    simpa using hpos
  unfold addKey withKey hashMapWith
  rw [if_neg hcond, hhash]
  dsimp only
  rw [hfree]
  cases key.buggyHash P with
  | error e => exact ⟨_, rfl, Or.inr ⟨e, rfl⟩⟩
  | ok buggyHash =>
    cases buggyHash with
    | none => exact ⟨_, rfl, Or.inl rfl⟩
    | some buggyHash => exact ⟨_, rfl, Or.inl rfl⟩

/-- How `AddKey` ends: it refuses the key, or it adds it; then it may still throw. -/
theorem addKey_cases {s s' : ManagedKeyset} {key : Key} {n : Int} {result : Except Exception Bool}
    (h : s.addKey P key n = (result, s')) :
    result = .ok false ∧ s' = s ∨
    ∃ hash, 0 < n ∧ (s.metadata.getVersion n).isSome ∧ s.getKey n = none ∧ key.hash P = some hash ∧
      s.hashMap hash = none ∧ s' = s.withKey P key n hash ∧ (result = .ok true ∨ ∃ e, result = .error e) := by
  by_cases hcond : n ≤ 0 ∨ (s.metadata.getVersion n).isNone ∨ (s.versionNumberMap.find n).isSome
  · unfold addKey at h
    rw [if_pos hcond] at h
    cases h
    exact Or.inl ⟨rfl, rfl⟩
  · cases hhash : key.hash P with
    | none =>
      unfold addKey at h
      rw [if_neg hcond, hhash] at h
      cases h
      exact Or.inl ⟨rfl, rfl⟩
    | some hash =>
      cases hfree : s.hashMap hash with
      | some found =>
        unfold addKey at h
        rw [if_neg hcond, hhash] at h
        dsimp only at h
        rw [hfree] at h
        cases h
        exact Or.inl ⟨rfl, rfl⟩
      | none =>
        simp only [not_or, not_le, Bool.not_eq_true, Option.isSome_eq_false_iff, Option.isNone_iff_eq_none] at hcond
        obtain ⟨hpos, hversion, hnew⟩ := hcond
        have hsome : (s.metadata.getVersion n).isSome := Option.isSome_iff_ne_none.mpr hversion
        obtain ⟨result', heq, hresult⟩ := addKey_new hpos hsome hnew hhash hfree
        rw [heq] at h
        cases h
        exact Or.inr ⟨hash, hpos, hsome, hnew, rfl, hfree, rfl, hresult⟩

/-- Every key of the set is kept under its hash, by which it can be told from the others. -/
structure KeyHashes (P : Primitives) (s : ManagedKeyset) : Prop where
  hashed : ∀ {n key}, s.getKey n = some key → ∃ hash found, key.hash P = some hash ∧ s.hashMap hash = some found
  distinct : ∀ {n n' key key'}, s.getKey n = some key → s.getKey n' = some key' → key.hash P = key'.hash P → n = n'

theorem KeyHashes.congr {s s' : ManagedKeyset} (hs : KeyHashes P s) (hv : s'.versionNumberMap = s.versionNumberMap)
    (hh : s'.hashMap = s.hashMap) : KeyHashes P s' := by
  constructor
  · intro n key hk
    unfold getKey at hk
    rw [hv] at hk
    rw [hh]
    exact hs.hashed hk
  · intro n n' key key' hk hk'
    unfold getKey at hk hk'
    rw [hv] at hk hk'
    exact hs.distinct hk hk'

theorem getKey_withKey (s : ManagedKeyset) (key : Key) (n n' : Int) (hash : Bytes) :
    (s.withKey P key n hash).getKey n' = if n' = n then some key else s.getKey n' :=
  s.versionNumberMap.find_insert n n' key

/-- What a hash finds after a key was added: the key, under its hash and its buggy hash. -/
theorem hashMap_withKey (s : ManagedKeyset) (key : Key) (n : Int) (hash i : Bytes) :
    (s.withKey P key n hash).hashMap i =
      if key.buggyHash P = .ok (some i) then some key else if i = hash then some key else s.hashMap i := by
  show hashMapWith P s.hashMap key hash i = _
  unfold hashMapWith
  cases hb : key.buggyHash P with
  | error e => simp [Function.update_apply]
  | ok b =>
    cases b with
    | none => simp [Function.update_apply]
    | some b =>
      by_cases hi : i = b
      · subst hi
        simp
      · have hne : ¬ b = i := fun h => hi h.symm
        simp [Function.update_apply, hi, hne]

theorem KeyHashes.withKey {s : ManagedKeyset} (h : KeyHashes P s) {key : Key} {hash : Bytes} (hhash : key.hash P = some hash)
    (hfree : s.hashMap hash = none) (n : Int) : KeyHashes P (s.withKey P key n hash) := by
  have hold : ∀ {n' key'}, s.getKey n' = some key' → key'.hash P ≠ key.hash P := by
    intro n' key' hk' heq
    obtain ⟨hash', found, hh', hf⟩ := h.hashed hk'
    rw [heq, hhash] at hh'
    cases Option.some.inj hh'
    rw [hfree] at hf
    cases hf
  constructor
  · intro n' key' hk'
    rw [getKey_withKey] at hk'
    split at hk'
    · cases Option.some.inj hk'
      refine ⟨hash, key, hhash, ?_⟩
      rw [hashMap_withKey]
      split
      · rfl
      · rw [if_pos rfl]
    · obtain ⟨hash', found, hh', hf⟩ := h.hashed hk'
      by_cases hb : key.buggyHash P = .ok (some hash')
      · exact ⟨hash', key, hh', by rw [hashMap_withKey, if_pos hb]⟩
      · refine ⟨hash', found, hh', ?_⟩
        rw [hashMap_withKey, if_neg hb, if_neg]
        · exact hf
        · rintro rfl
          exact hold hk' (hh'.trans hhash.symm)
  · intro n₁ n₂ k₁ k₂ h₁ h₂ heq
    rw [getKey_withKey] at h₁ h₂
    split at h₁
    · rename_i hn₁
      split at h₂
      · rename_i hn₂
        rw [hn₁, hn₂]
      · cases Option.some.inj h₁
        exact absurd heq.symm (hold h₂)
    · split at h₂
      · cases Option.some.inj h₂
        exact absurd heq (hold h₁)
      · exact h.distinct h₁ h₂ heq

/-- The state after the key of a version was removed. -/
def withoutKey (s : ManagedKeyset) (n : Int) (hash : Bytes) : ManagedKeyset :=
  { s with versionNumberMap := s.versionNumberMap.erase n, hashMap := Function.update s.hashMap hash none }

theorem getKey_withoutKey (s : ManagedKeyset) (n n' : Int) (hash : Bytes) :
    (s.withoutKey n hash).getKey n' = if n' = n then none else s.getKey n' :=
  s.versionNumberMap.find_erase n n'

/-- A key of the set can be removed. -/
theorem KeyHashes.removeKey {s : ManagedKeyset} (h : KeyHashes P s) {n : Int} {key : Key} (hk : s.getKey n = some key) :
    ∃ hash, key.hash P = some hash ∧ s.removeKey P n = (true, s.withoutKey n hash) := by
  obtain ⟨hash, found, hh, hf⟩ := h.hashed hk
  refine ⟨hash, hh, ?_⟩
  unfold getKey at hk
  unfold ManagedKeyset.removeKey
  rw [hk]
  dsimp only
  rw [hh]
  dsimp only
  rw [hf]
  rfl

/-- A version without a key has none to remove. -/
theorem removeKey_of_none {s : ManagedKeyset} {n : Int} (hk : s.getKey n = none) : s.removeKey P n = (false, s) := by
  unfold getKey at hk
  unfold ManagedKeyset.removeKey
  rw [hk]

/-- An inactive version is revoked, and its key with it. -/
theorem revokeKey_of_inactive {s : ManagedKeyset} {n : Int} {v : KeyVersion} (hpos : 0 < n) (hv : s.metadata.getVersion n = some v)
    (hst : v.keyStatus = .inactive) :
    s.revokeKey P n = (true, ({ s with metadata := (s.metadata.removeVersion n).2 }.removeKey P n).2) := by
  unfold ManagedKeyset.revokeKey
  rw [if_neg (not_le.mpr hpos), hv]
  dsimp only
  rw [hst, if_neg (by decide)]

/-- `RevokeKey` refuses, or the version is inactive. -/
theorem revokeKey_cases (s : ManagedKeyset) (n : Int) :
    s.revokeKey P n = (false, s) ∨
      ∃ v, s.metadata.getVersion n = some v ∧ v.keyStatus = .inactive ∧
        s.revokeKey P n = (true, ({ s with metadata := (s.metadata.removeVersion n).2 }.removeKey P n).2) := by
  by_cases hpos : 0 < n
  · cases hv : s.metadata.getVersion n with
    | none =>
      refine Or.inl ?_
      unfold ManagedKeyset.revokeKey
      rw [if_neg (not_le.mpr hpos), hv]
    | some v =>
      by_cases hst : v.keyStatus = .inactive
      · exact Or.inr ⟨v, rfl, hst, revokeKey_of_inactive hpos hv hst⟩
      · refine Or.inl ?_
        unfold ManagedKeyset.revokeKey
        rw [if_neg (not_le.mpr hpos), hv]
        dsimp only
        rw [if_pos hst]
  · exact Or.inl (if_pos (not_lt.mp hpos))

theorem KeyHashes.withoutKey {s : ManagedKeyset} (h : KeyHashes P s) {n : Int} {key : Key} {hash : Bytes}
    (hk : s.getKey n = some key) (hh : key.hash P = some hash) : KeyHashes P (s.withoutKey n hash) := by
  constructor
  · intro n' key' hk'
    rw [getKey_withoutKey] at hk'
    split at hk'
    · cases hk'
    · rename_i hn
      obtain ⟨hash', found, hh', hf⟩ := h.hashed hk'
      refine ⟨hash', found, hh', ?_⟩
      show Function.update s.hashMap hash none hash' = some found
      rw [Function.update_of_ne]
      · exact hf
      · rintro rfl
        exact hn (h.distinct hk' hk (hh'.trans hh.symm))
  · intro n₁ n₂ k₁ k₂ h₁ h₂ heq
    rw [getKey_withoutKey] at h₁ h₂
    split at h₁
    · cases h₁
    · split at h₂
      · cases h₂
      · exact h.distinct h₁ h₂ heq

end ManagedKeyset

end Cpp
