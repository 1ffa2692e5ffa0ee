import Keyczar.Cpp.KeysetRuns

/-!
# The lifecycle of a key set

What loading establishes and every call keeps: one primary version at most, which the primary number names; a key for every version
of the metadata and none beside; and a counter above every number there is.
-/

namespace Cpp

namespace KeysetMetadata

theorem getVersion_removeVersion (m : KeysetMetadata) (n n' : Int) :
    (m.removeVersion n).2.getVersion n' = if n' = n then none else m.getVersion n' := by
  unfold removeVersion
  split
  · exact m.keyVersionsMap.find_erase n n'
  · rename_i hnone
    by_cases hn : n' = n
    · subst hn
      rw [if_pos rfl]
      simpa [getVersion] using hnone
    · rw [if_neg hn]

@[simp] theorem nextKeyVersionNumber_removeVersion (m : KeysetMetadata) (n : Int) :
    (m.removeVersion n).2.nextKeyVersionNumber = m.nextKeyVersionNumber := by
  unfold removeVersion
  split <;> rfl

end KeysetMetadata

/-- The counter has room for one more. -/
theorem toInt_add_one {n : Int} (hpos : 0 < n) (h : n + 1 < 2 ^ 31) : toInt (n + 1) = n + 1 := by
  unfold toInt
  rw [Int.bmod_eq_of_le] <;> omega

namespace ManagedKeyset

variable {P : Primitives}

/-- What holds of a key set between two calls. -/
structure Consistent (P : Primitives) (s : ManagedKeyset) : Prop where
  statuses : Statuses s
  hashes : KeyHashes P s
  keys : ∀ n, (s.getKey n).isSome = (s.metadata.getVersion n).isSome
  next_pos : 0 < s.metadata.nextKeyVersionNumber

/-! ## Calls on the statuses -/

theorem Consistent.of_sameKeys {s s' : ManagedKeyset} (h : Consistent P s) (hsame : SameKeys s s')
    (hsound : Lifecycle.Sound s'.lifecycle) : Consistent P s' := by
  refine ⟨⟨fun hv => hsame.positive h.statuses.positive hv, hsound⟩, h.hashes.congr hsame.versionNumberMap_eq hsame.hashMap_eq, ?_, ?_⟩
  · intro n
    have hkey : s'.getKey n = s.getKey n := congrArg (fun m => m.find n) hsame.versionNumberMap_eq
    rw [hkey, hsame.isSome_getVersion, h.keys]
  · rw [hsame.next_eq]
    exact h.next_pos

theorem Consistent.promoteKey {s : ManagedKeyset} (h : Consistent P s) (n : Int) : Consistent P (s.promoteKey n).2 := by
  refine h.of_sameKeys (sameKeys_promoteKey s n) ?_
  have hrefine := h.statuses.promoteKey n
  cases hp : s.lifecycle.promote n with
  | none =>
    rw [hp] at hrefine
    dsimp only at hrefine
    rw [hrefine]
    exact h.statuses.sound
  | some t =>
    rw [hp] at hrefine
    rw [hrefine.2]
    exact h.statuses.sound.promote hp

theorem Consistent.demoteKey {s : ManagedKeyset} (h : Consistent P s) (n : Int) : Consistent P (s.demoteKey n).2 := by
  refine h.of_sameKeys (sameKeys_demoteKey s n) ?_
  have hrefine := h.statuses.demoteKey n
  cases hd : s.lifecycle.demote n with
  | none =>
    rw [hd] at hrefine
    dsimp only at hrefine
    rw [hrefine]
    exact h.statuses.sound
  | some t =>
    rw [hd] at hrefine
    rw [hrefine.2]
    exact h.statuses.sound.demote hd

/-! ## Revoking -/

/-- The state after a version was revoked whose key has a hash. -/
def revoked (s : ManagedKeyset) (n : Int) (hash : Bytes) : ManagedKeyset :=
  { s with metadata := (s.metadata.removeVersion n).2 }.withoutKey n hash

theorem lifecycle_revoked (s : ManagedKeyset) (n : Int) (hash : Bytes) :
    (s.revoked n hash).lifecycle = { s.lifecycle with status := Function.update s.lifecycle.status n none } := by
  refine Lifecycle.State.ext ?_ rfl (s.metadata.nextKeyVersionNumber_removeVersion n)
  funext n'
  show ((s.metadata.removeVersion n).2.getVersion n').map (fun v => v.keyStatus.status) =
    Function.update s.lifecycle.status n none n'
  rw [KeysetMetadata.getVersion_removeVersion]
  by_cases hn : n' = n
  · subst hn
    rw [if_pos rfl, Function.update_self]
    rfl
  · rw [if_neg hn, Function.update_of_ne hn]
    rfl

/-- `RevokeKey` refines the revocation of the lifecycle, and the key goes with the version. -/
theorem Consistent.revokeKey_spec {s : ManagedKeyset} (h : Consistent P s) (n : Int) :
    match s.lifecycle.revoke n with
    | some t => ∃ key hash, s.getKey n = some key ∧ key.hash P = some hash ∧ s.revokeKey P n = (true, s.revoked n hash) ∧
        (s.revoked n hash).lifecycle = t
    | none => s.revokeKey P n = (false, s) := by
  unfold Lifecycle.State.revoke
  cases hv : s.metadata.getVersion n with
  | none =>
    rw [status_lifecycle_of_none hv]
    simp [ManagedKeyset.revokeKey, hv]
  | some v =>
    rw [status_lifecycle_of_getVersion hv]
    have hpos : ¬ n ≤ 0 := not_le.mpr (h.statuses.positive hv)
    cases hst : v.keyStatus with
    | primary => simp [ManagedKeyset.revokeKey, hv, hpos, hst, KeyStatus.status]
    | active => simp [ManagedKeyset.revokeKey, hv, hpos, hst, KeyStatus.status]
    | undefined => simp [ManagedKeyset.revokeKey, hv, hpos, hst, KeyStatus.status]
    | inactive =>
      have hsome : (s.getKey n).isSome := by
        rw [h.keys n, hv]
        rfl
      obtain ⟨key, hk⟩ := Option.isSome_iff_exists.mp hsome
      have hremoved : KeyHashes P { s with metadata := (s.metadata.removeVersion n).2 } := h.hashes.congr rfl rfl
      obtain ⟨hash, hh, hremove⟩ := hremoved.removeKey (n := n) hk
      refine ⟨key, hash, hk, hh, ?_, lifecycle_revoked s n hash⟩
      rw [revokeKey_of_inactive (not_le.mp hpos) hv hst, hremove]
      rfl

theorem Consistent.revokeKey {s : ManagedKeyset} (h : Consistent P s) (n : Int) : Consistent P (s.revokeKey P n).2 := by
  have hrefine := h.revokeKey_spec n
  cases hr : s.lifecycle.revoke n with
  | none =>
    rw [hr] at hrefine
    dsimp only at hrefine
    rw [hrefine]
    exact h
  | some t =>
    rw [hr] at hrefine
    obtain ⟨key, hash, hk, hh, heq, hlife⟩ := hrefine
    rw [heq]
    have hremoved : KeyHashes P { s with metadata := (s.metadata.removeVersion n).2 } := h.hashes.congr rfl rfl
    refine ⟨⟨?_, ?_⟩, hremoved.withoutKey (n := n) hk hh, ?_, ?_⟩
    · intro n' v hv
      have hget := s.metadata.getVersion_removeVersion n n'
      split at hget
      · rw [show (s.metadata.removeVersion n).2.getVersion n' = some v from hv] at hget
        cases hget
      · exact h.statuses.positive (hget.symm.trans hv)
    · rw [hlife]
      exact h.statuses.sound.revoke hr
    · intro n'
      show ((s.versionNumberMap.erase n).find n').isSome = ((s.metadata.removeVersion n).2.getVersion n').isSome
      rw [OrderedMap.find_erase, KeysetMetadata.getVersion_removeVersion]
      split
      · rfl
      · exact h.keys n'
    · show 0 < (s.metadata.removeVersion n).2.nextKeyVersionNumber
      rw [KeysetMetadata.nextKeyVersionNumber_removeVersion]
      exact h.next_pos

/-! ## New versions -/

/-- The metadata after a version was added without a number. -/
def withVersion (m : KeysetMetadata) (status : KeyStatus) : KeysetMetadata :=
  { m with
    nextKeyVersionNumber := m.nextKeyVersionNumber + 1
    keyVersionsMap := m.keyVersionsMap.insert m.nextKeyVersionNumber ⟨m.nextKeyVersionNumber, status, false⟩ }

theorem getVersion_withVersion (m : KeysetMetadata) (status : KeyStatus) (n : Int) :
    (withVersion m status).getVersion n =
      if n = m.nextKeyVersionNumber then some ⟨m.nextKeyVersionNumber, status, false⟩ else m.getVersion n :=
  m.keyVersionsMap.find_insert m.nextKeyVersionNumber n _

theorem isSome_getVersion_withVersion (m : KeysetMetadata) (status : KeyStatus) (n : Int) :
    ((withVersion m status).getVersion n).isSome = (decide (n = m.nextKeyVersionNumber) || (m.getVersion n).isSome) := by
  rw [getVersion_withVersion]
  by_cases hn : n = m.nextKeyVersionNumber <;> simp [hn]

/-- What `AddVersion` makes of a version without a number; the counter may overflow. -/
theorem addVersion_new {m : KeysetMetadata} (hpos : 0 < m.nextKeyVersionNumber)
    (hfree : m.getVersion m.nextKeyVersionNumber = none) (status : KeyStatus) :
    m.addVersion ⟨0, status, false⟩ = some (true, ⟨m.nextKeyVersionNumber, status, false⟩,
      { withVersion m status with nextKeyVersionNumber := toInt (m.nextKeyVersionNumber + 1) }) := by
  have hassign : m.assignNumber ⟨0, status, false⟩ = some (⟨m.nextKeyVersionNumber, status, false⟩,
      { m with nextKeyVersionNumber := toInt (m.nextKeyVersionNumber + 1) }) := by
    unfold KeysetMetadata.assignNumber
    dsimp only
    rw [if_pos (Eq.refl (0 : Int)), if_neg (not_le.mpr hpos)]
  unfold KeysetMetadata.addVersion
  rw [hassign]
  unfold KeysetMetadata.getVersion at hfree
  simp [hfree, withVersion]

/-- The new version in the lifecycle, before it is made primary if it is to be. -/
theorem lifecycle_withVersion (s : ManagedKeyset) (status : KeyStatus) :
    ({ s with metadata := withVersion s.metadata status } : ManagedKeyset).lifecycle =
      { s.lifecycle.assign s.metadata.nextKeyVersionNumber status.status with next := s.metadata.nextKeyVersionNumber + 1 } := by
  refine Lifecycle.State.ext ?_ rfl rfl
  funext n
  show ((withVersion s.metadata status).getVersion n).map (fun v => v.keyStatus.status) =
    Function.update s.lifecycle.status s.metadata.nextKeyVersionNumber (some status.status) n
  rw [getVersion_withVersion]
  by_cases hn : n = s.metadata.nextKeyVersionNumber
  · subst hn
    rw [if_pos rfl, Function.update_self]
    rfl
  · rw [if_neg hn, Function.update_of_ne hn]
    rfl

/-- A key set to which a version was added that has no key yet. -/
structure WithVersion (s t : ManagedKeyset) (status : KeyStatus) : Prop where
  lifecycle_eq : t.lifecycle = s.lifecycle.add status.status
  versionNumberMap_eq : t.versionNumberMap = s.versionNumberMap
  hashMap_eq : t.hashMap = s.hashMap
  keyType_eq : t.metadata.keyType = s.metadata.keyType
  isSome_getVersion : ∀ n, (t.metadata.getVersion n).isSome =
    (decide (n = s.metadata.nextKeyVersionNumber) || (s.metadata.getVersion n).isSome)

theorem withVersion_secondary (s : ManagedKeyset) {status : KeyStatus} (hst : status ≠ .primary) :
    WithVersion s { s with metadata := withVersion s.metadata status } status := by
  refine ⟨?_, rfl, rfl, rfl, isSome_getVersion_withVersion s.metadata status⟩
  rw [lifecycle_withVersion]
  unfold Lifecycle.State.add
  rw [if_neg fun he => hst ((KeyStatus.status_eq_primary_iff status).mp he)]
  rfl

/-- A new version made primary when none is. -/
theorem withVersion_primary {s : ManagedKeyset} (hpos : 0 < s.metadata.nextKeyVersionNumber) (hzero : s.primaryKeyVersionNumber = 0) :
    WithVersion s
      ({ s with metadata := withVersion s.metadata .primary, primaryKeyVersionNumber := s.metadata.nextKeyVersionNumber }.setKeyStatus
        s.metadata.nextKeyVersionNumber .primary) .primary := by
  refine ⟨?_, rfl, rfl, ?_, ?_⟩
  · have hv : (withVersion s.metadata .primary).getVersion s.metadata.nextKeyVersionNumber =
        some ⟨s.metadata.nextKeyVersionNumber, .primary, false⟩ := by
      rw [getVersion_withVersion, if_pos rfl]
    rw [lifecycle_setKeyStatus (s := { s with
      metadata := withVersion s.metadata .primary, primaryKeyVersionNumber := s.metadata.nextKeyVersionNumber }) hv]
    have hrelease : s.lifecycle.release = s.lifecycle := by
      unfold Lifecycle.State.release lifecycle
      rw [if_pos hzero]
    have hstatus := congrArg Lifecycle.State.status (lifecycle_withVersion s .primary)
    unfold Lifecycle.State.add Lifecycle.State.makePrimary
    simp only [KeyStatus.status, if_true]
    rw [hrelease]
    refine Lifecycle.State.ext ?_ ?_ rfl
    · show Function.update ({ s with metadata := withVersion s.metadata .primary } : ManagedKeyset).lifecycle.status _ _ = _
      rw [hstatus]
      exact Function.update_idem _ _ _
    · exact if_neg (Int.ne_of_gt hpos)
  · exact KeysetMetadata.keyType_setKeyStatus _ _ _
  · intro n
    refine Eq.trans ?_ (isSome_getVersion_withVersion s.metadata .primary n)
    exact KeysetMetadata.isSome_getVersion_setKeyStatus _ _ _ _

theorem Consistent.getVersion_next {s : ManagedKeyset} (h : Consistent P s) :
    s.metadata.getVersion s.metadata.nextKeyVersionNumber = none := by
  have hnext := h.statuses.sound.status_next
  unfold lifecycle at hnext
  exact Option.map_eq_none_iff.mp hnext

/-! ## The counter -/

/-- The key set with another next number. -/
def withNext (s : ManagedKeyset) (next : Int) : ManagedKeyset :=
  { s with metadata := { s.metadata with nextKeyVersionNumber := next } }

@[simp] theorem getVersion_withNext (s : ManagedKeyset) (next n : Int) :
    (s.withNext next).metadata.getVersion n = s.metadata.getVersion n := rfl

@[simp] theorem primaryKeyVersionNumber_withNext (s : ManagedKeyset) (next : Int) :
    (s.withNext next).primaryKeyVersionNumber = s.primaryKeyVersionNumber := rfl

@[simp] theorem getPrimaryKeyVersion_withNext (s : ManagedKeyset) (next : Int) :
    (s.withNext next).getPrimaryKeyVersion = s.getPrimaryKeyVersion := rfl

@[simp] theorem versionNumberMap_withNext (s : ManagedKeyset) (next : Int) :
    (s.withNext next).versionNumberMap = s.versionNumberMap := rfl

@[simp] theorem hashMap_withNext (s : ManagedKeyset) (next : Int) : (s.withNext next).hashMap = s.hashMap := rfl

theorem withNext_self (s : ManagedKeyset) : s.withNext s.metadata.nextKeyVersionNumber = s := rfl

theorem setKeyStatus_withNext (s : ManagedKeyset) (next n : Int) (status : KeyStatus) :
    (s.withNext next).setKeyStatus n status = (s.setKeyStatus n status).withNext next := by
  unfold ManagedKeyset.setKeyStatus KeysetMetadata.setKeyStatus
  rw [getVersion_withNext]
  cases s.metadata.getVersion n <;> rfl

/-- No operation but the addition of a version looks at the counter. -/
theorem updateKeyStatus_withNext (s : ManagedKeyset) (next : Int) (status : KeyStatus) (n : Int) :
    (s.withNext next).updateKeyStatus status n = ((s.updateKeyStatus status n).1, (s.updateKeyStatus status n).2.withNext next) := by
  cases status with
  | undefined => rfl
  | active => simp [updateKeyStatus, setKeyStatus_withNext]
  | inactive => simp [updateKeyStatus, setKeyStatus_withNext]
  | primary =>
    unfold updateKeyStatus
    dsimp only
    rw [getPrimaryKeyVersion_withNext, primaryKeyVersionNumber_withNext]
    by_cases hcond : s.primaryKeyVersionNumber ≠ 0 ∧ s.getPrimaryKeyVersion.isNone
    · rw [if_pos hcond, if_pos hcond]
    · rw [if_neg hcond, if_neg hcond]
      cases s.getPrimaryKeyVersion with
      | none => exact congrArg (Prod.mk true) (setKeyStatus_withNext { s with primaryKeyVersionNumber := n } next n .primary)
      | some v =>
        simp only [Option.isSome_some, if_true]
        rw [setKeyStatus_withNext]
        exact congrArg (Prod.mk true) (setKeyStatus_withNext
          { s.setKeyStatus s.primaryKeyVersionNumber .active with primaryKeyVersionNumber := n } next n .primary)

theorem addKey_withNext (s : ManagedKeyset) (next : Int) (key : Key) (n : Int) :
    (s.withNext next).addKey P key n = ((s.addKey P key n).1, (s.addKey P key n).2.withNext next) := by
  unfold addKey
  rw [getVersion_withNext, versionNumberMap_withNext]
  by_cases hcond : n ≤ 0 ∨ (s.metadata.getVersion n).isNone ∨ (s.versionNumberMap.find n).isSome
  · rw [if_pos hcond, if_pos hcond]
  · rw [if_neg hcond, if_neg hcond]
    cases key.hash P with
    | none => rfl
    | some hash =>
      dsimp only
      rw [hashMap_withNext]
      by_cases hused : (s.hashMap hash).isSome
      · rw [if_pos hused, if_pos hused]
      · rw [if_neg hused, if_neg hused]
        cases key.buggyHash P with
        | error e => rfl
        | ok buggyHash => cases buggyHash <;> rfl

/-- `AddKeyVersion` of a version without a number adds it to the lifecycle, when no other version is in the way of a primary one; the
counter may overflow. -/
theorem Consistent.addKeyVersion_counted {s : ManagedKeyset} (h : Consistent P s) {status : KeyStatus}
    (hroom : status = .primary → s.primaryKeyVersionNumber = 0) :
    ∃ t, s.addKeyVersion ⟨0, status, false⟩ =
        some (s.metadata.nextKeyVersionNumber, t.withNext (toInt (s.metadata.nextKeyVersionNumber + 1))) ∧
      WithVersion s t status := by
  have hadd := addVersion_new h.next_pos h.getVersion_next status
  by_cases hst : status = .primary
  · subst hst
    have hzero := hroom rfl
    have hnone : ({ s with metadata := withVersion s.metadata .primary } : ManagedKeyset).getPrimaryKeyVersion = none := by
      have hne : s.primaryKeyVersionNumber ≠ s.metadata.nextKeyVersionNumber := by
        have := h.next_pos
        omega
      show (withVersion s.metadata .primary).getVersion s.primaryKeyVersionNumber = none
      rw [getVersion_withVersion, if_neg hne]
      rcases h.statuses.getPrimaryKeyVersion with ⟨-, hp⟩ | ⟨hp, -⟩
      · exact hp
      · exact absurd hzero hp
    refine ⟨_, ?_, withVersion_primary h.next_pos hzero⟩
    have hupdate : ({ s with metadata := withVersion s.metadata .primary } : ManagedKeyset).updateKeyStatus .primary
        s.metadata.nextKeyVersionNumber = (true,
          { s with metadata := withVersion s.metadata .primary, primaryKeyVersionNumber := s.metadata.nextKeyVersionNumber }.setKeyStatus
            s.metadata.nextKeyVersionNumber .primary) := by
      unfold updateKeyStatus
      rw [hnone]
      simp [hzero]
    have hcounted := updateKeyStatus_withNext { s with metadata := withVersion s.metadata .primary }
      (toInt (s.metadata.nextKeyVersionNumber + 1)) .primary s.metadata.nextKeyVersionNumber
    rw [hupdate] at hcounted
    unfold ManagedKeyset.addKeyVersion
    rw [if_neg (by simp), hadd]
    simp only [if_true]
    rw [show ({ s with metadata := { withVersion s.metadata .primary with
      nextKeyVersionNumber := toInt (s.metadata.nextKeyVersionNumber + 1) } } : ManagedKeyset).updateKeyStatus .primary
        s.metadata.nextKeyVersionNumber = _ from hcounted]
  · refine ⟨_, ?_, withVersion_secondary s hst⟩
    unfold ManagedKeyset.addKeyVersion
    rw [if_neg (by simp), hadd]
    simp [hst, withNext]

/-- A key set to which a version was added has the next number. -/
theorem WithVersion.next_eq {s t : ManagedKeyset} {status : KeyStatus} (h : WithVersion s t status) :
    t.metadata.nextKeyVersionNumber = s.metadata.nextKeyVersionNumber + 1 := by
  refine (congrArg Lifecycle.State.next h.lifecycle_eq).trans ?_
  unfold Lifecycle.State.add
  rfl

/-- Before a primary version is added, the one there is makes room. -/
theorem Consistent.makeRoom {s : ManagedKeyset} (h : Consistent P s) (status : KeyStatus) :
    ∃ t, (if status = .primary ∧ 0 < s.primaryKeyVersionNumber then s.demoteKey s.primaryKeyVersionNumber else (true, s)) = (true, t) ∧
      Consistent P t ∧ SameKeys s t ∧ t.lifecycle.add status.status = s.lifecycle.add status.status ∧
      (status = .primary → t.primaryKeyVersionNumber = 0) := by
  by_cases hroom : status = .primary ∧ 0 < s.primaryKeyVersionNumber
  · obtain ⟨rfl, hpos⟩ := hroom
    have hlp : s.lifecycle.primary = some s.primaryKeyVersionNumber := if_neg (Int.ne_of_gt hpos)
    have hst := (h.statuses.sound.primary_iff s.primaryKeyVersionNumber).mp hlp
    have hdemote : s.lifecycle.demote s.primaryKeyVersionNumber = some s.lifecycle.release := by
      unfold Lifecycle.State.demote Lifecycle.State.release
      rw [hst, hlp]
    have hrefine := h.statuses.demoteKey s.primaryKeyVersionNumber
    rw [hdemote] at hrefine
    obtain ⟨htrue, hlife⟩ := hrefine
    refine ⟨(s.demoteKey s.primaryKeyVersionNumber).2, ?_, h.demoteKey _, sameKeys_demoteKey s _, ?_, ?_⟩
    · rw [if_pos ⟨rfl, hpos⟩, ← htrue]
    · rw [hlife]
      exact Lifecycle.Sound.add_release s.lifecycle
    · intro _
      have hprimary := congrArg Lifecycle.State.primary hlife
      rw [Lifecycle.Sound.primary_release] at hprimary
      by_contra hne
      rw [show (s.demoteKey s.primaryKeyVersionNumber).2.lifecycle.primary = some _ from if_neg hne] at hprimary
      cases hprimary
  · refine ⟨s, if_neg hroom, h, sameKeys_refl s, rfl, ?_⟩
    intro hst
    rcases h.statuses.getPrimaryKeyVersion with ⟨hp, -⟩ | ⟨-, v, hv, -⟩
    · exact hp
    · exact absurd ⟨hst, h.statuses.positive hv⟩ hroom

/-- What `GenerateKey` and `ImportPrivateKey` do with a key whose hash is not in use: the version gets the next number and the key, also
when hashing the key throws. -/
structure NewKey (P : Primitives) (s : ManagedKeyset) (status : KeyStatus) (key : Key)
    (result : Except Exception Int) (s' : ManagedKeyset) : Prop where
  result_eq : result = .ok s.metadata.nextKeyVersionNumber ∨ ∃ e, result = .error e
  lifecycle_eq : s'.lifecycle = s.lifecycle.add status.status
  keys : ∃ hash, key.hash P = some hash ∧ s.hashMap hash = none ∧
    s'.versionNumberMap = s.versionNumberMap.insert s.metadata.nextKeyVersionNumber key ∧
    s'.hashMap = hashMapWith P s.hashMap key hash
  keyType_eq : s'.metadata.keyType = s.metadata.keyType

theorem SameKeys.withVersion {s t u : ManagedKeyset} {status : KeyStatus} (h : SameKeys s t)
    (hadd : t.lifecycle.add status.status = s.lifecycle.add status.status) (hversion : WithVersion t u status) :
    WithVersion s u status := by
  refine ⟨hversion.lifecycle_eq.trans hadd, hversion.versionNumberMap_eq.trans h.versionNumberMap_eq,
    hversion.hashMap_eq.trans h.hashMap_eq, hversion.keyType_eq.trans h.keyType_eq, ?_⟩
  intro n
  rw [hversion.isSome_getVersion, h.next_eq, h.isSome_getVersion]

theorem Consistent.getKey_next {s : ManagedKeyset} (h : Consistent P s) : s.getKey s.metadata.nextKeyVersionNumber = none := by
  rw [← Option.not_isSome_iff_eq_none, h.keys, h.getVersion_next]
  exact nofun

/-- With its key, the new version makes the key set consistent again. -/
theorem Consistent.withKey {s u : ManagedKeyset} (h : Consistent P s) {status : KeyStatus} (hversion : WithVersion s u status)
    {key : Key} {hash : Bytes} (hhash : key.hash P = some hash) (hfree : s.hashMap hash = none) :
    Consistent P (u.withKey P key s.metadata.nextKeyVersionNumber hash) := by
  have hlife : (u.withKey P key s.metadata.nextKeyVersionNumber hash).lifecycle = s.lifecycle.add status.status :=
    hversion.lifecycle_eq
  refine ⟨⟨?_, ?_⟩, ?_, ?_, ?_⟩
  · intro n v hv
    have hsome := hversion.isSome_getVersion n
    rw [show u.metadata.getVersion n = some v from hv] at hsome
    rcases Bool.or_eq_true_iff.mp hsome.symm with heq | hold
    · rw [of_decide_eq_true heq]
      exact h.next_pos
    · obtain ⟨w, hw⟩ := Option.isSome_iff_exists.mp hold
      exact h.statuses.positive hw
  · rw [hlife]
    exact h.statuses.sound.add status.status
  · have hu := h.hashes.congr hversion.versionNumberMap_eq hversion.hashMap_eq
    exact hu.withKey hhash (by rw [hversion.hashMap_eq]; exact hfree) _
  · intro n
    rw [getKey_withKey]
    show _ = (u.metadata.getVersion n).isSome
    rw [hversion.isSome_getVersion]
    by_cases hn : n = s.metadata.nextKeyVersionNumber
    · simp [hn]
    · rw [if_neg hn, decide_eq_false hn, Bool.false_or, ← h.keys n]
      unfold getKey
      rw [hversion.versionNumberMap_eq]
  · have hnext := hversion.next_eq
    have hpos := h.next_pos
    show 0 < u.metadata.nextKeyVersionNumber
    omega

/-- The addition of a key whose hash is not in use; the counter may overflow. -/
theorem Consistent.addNewKey_counted {s : ManagedKeyset} (h : Consistent P s) (status : KeyStatus) {key : Key} {hash : Bytes}
    (hhash : key.hash P = some hash) (hfree : s.hashMap hash = none) :
    ∃ result s', s.addNewKey P status key = some (result, s'.withNext (toInt (s.metadata.nextKeyVersionNumber + 1))) ∧
      NewKey P s status key result s' ∧ Consistent P s' := by
  obtain ⟨t, hroom, ht, hsame, hadd, hzero⟩ := h.makeRoom status
  obtain ⟨u, hu, hversion⟩ := ht.addKeyVersion_counted hzero
  rw [hsame.next_eq] at hu
  have hversion := hsame.withVersion hadd hversion
  have hmaps : (u.withKey P key s.metadata.nextKeyVersionNumber hash).versionNumberMap =
        s.versionNumberMap.insert s.metadata.nextKeyVersionNumber key ∧
      (u.withKey P key s.metadata.nextKeyVersionNumber hash).hashMap = hashMapWith P s.hashMap key hash := by
    unfold ManagedKeyset.withKey
    rw [hversion.versionNumberMap_eq, hversion.hashMap_eq]
    exact ⟨rfl, rfl⟩
  have hnew : u.getKey s.metadata.nextKeyVersionNumber = none := by
    unfold getKey
    rw [hversion.versionNumberMap_eq]
    exact h.getKey_next
  have hnone : u.hashMap hash = none := by
    rw [hversion.hashMap_eq]
    exact hfree
  have hsome : (u.metadata.getVersion s.metadata.nextKeyVersionNumber).isSome := by
    rw [hversion.isSome_getVersion, decide_eq_true rfl, Bool.true_or]
  obtain ⟨added, hadded, hresult⟩ := addKey_new h.next_pos hsome hnew hhash hnone
  have hcounted := addKey_withNext (P := P) u (toInt (s.metadata.nextKeyVersionNumber + 1)) key s.metadata.nextKeyVersionNumber
  rw [hadded] at hcounted
  have hne : s.metadata.nextKeyVersionNumber ≠ 0 := Int.ne_of_gt h.next_pos
  have hcall : ∃ result, s.addNewKey P status key = some (result,
        (u.withKey P key s.metadata.nextKeyVersionNumber hash).withNext (toInt (s.metadata.nextKeyVersionNumber + 1))) ∧
      (result = .ok s.metadata.nextKeyVersionNumber ∨ ∃ e, result = .error e) := by
    unfold ManagedKeyset.addNewKey
    rw [hroom]
    simp only [Bool.not_true, Bool.false_eq_true, if_false]
    rw [hu]
    dsimp only
    rw [if_neg hne, hcounted]
    rcases hresult with rfl | ⟨e, rfl⟩
    · exact ⟨_, rfl, Or.inl rfl⟩
    · exact ⟨_, rfl, Or.inr ⟨e, rfl⟩⟩
  obtain ⟨result, hcall, hresult⟩ := hcall
  exact ⟨result, _, hcall, ⟨hresult, hversion.lifecycle_eq, ⟨hash, hhash, hfree, hmaps.1, hmaps.2⟩, hversion.keyType_eq⟩,
    h.withKey hversion hhash hfree⟩

theorem NewKey.next_eq {s s' : ManagedKeyset} {status : KeyStatus} {key : Key} {result : Except Exception Int}
    (h : NewKey P s status key result s') : s'.metadata.nextKeyVersionNumber = s.metadata.nextKeyVersionNumber + 1 := by
  refine (congrArg Lifecycle.State.next h.lifecycle_eq).trans ?_
  unfold Lifecycle.State.add
  rfl

theorem Consistent.addNewKey {s : ManagedKeyset} (h : Consistent P s) (hbound : s.metadata.nextKeyVersionNumber + 1 < 2 ^ 31)
    (status : KeyStatus) {key : Key} {hash : Bytes} (hhash : key.hash P = some hash) (hfree : s.hashMap hash = none) :
    ∃ result s', s.addNewKey P status key = some (result, s') ∧ NewKey P s status key result s' ∧ Consistent P s' := by
  obtain ⟨result, s', hadd, hnew, hconsistent⟩ := h.addNewKey_counted status hhash hfree
  rw [toInt_add_one h.next_pos hbound, ← hnew.next_eq, withNext_self] at hadd
  exact ⟨result, s', hadd, hnew, hconsistent⟩

/-- When the addition of a key throws, its buggy hash did. -/
theorem buggyHash_of_addNewKey {s s' : ManagedKeyset} {status : KeyStatus} {key : Key} {e : Exception}
    (h : s.addNewKey P status key = some (.error e, s')) : key.buggyHash P = .error e := by
  have hadd : ∀ {u u' : ManagedKeyset} {n : Int}, u.addKey P key n = (.error e, u') → key.buggyHash P = .error e := by
    intro u u' n hu
    unfold ManagedKeyset.addKey at hu
    split at hu
    · cases hu
    · split at hu
      · cases hu
      · split at hu
        · cases hu
        · split at hu
          · rename_i hb
            cases hu
            exact hb
          · cases hu
          · cases hu
  unfold ManagedKeyset.addNewKey at h
  generalize (if status = .primary ∧ 0 < s.primaryKeyVersionNumber then s.demoteKey s.primaryKeyVersionNumber else (true, s)) = room at h
  obtain ⟨demoted, t⟩ := room
  cases demoted with
  | false => cases h
  | true =>
    simp only [Bool.not_true, Bool.false_eq_true, if_false] at h
    split at h
    · cases h
    · split at h
      · cases h
      · split at h
        · rename_i hkey
          cases h
          exact hadd hkey
        · cases h
        · cases h

/-- `AddKeyVersion` of a version without a number counts it, also when there is no room left. -/
theorem Consistent.addKeyVersion_counter {s u : ManagedKeyset} (h : Consistent P s) {status : KeyStatus} {n : Int}
    (hadd : s.addKeyVersion ⟨0, status, false⟩ = some (n, u)) :
    u.metadata.nextKeyVersionNumber = toInt (s.metadata.nextKeyVersionNumber + 1) := by
  unfold ManagedKeyset.addKeyVersion at hadd
  rw [if_neg (by simp), addVersion_new h.next_pos h.getVersion_next] at hadd
  dsimp only at hadd
  split at hadd
  · split at hadd
    · rename_i t hupdate
      cases hadd
      have hsame := sameKeys_updateKeyStatus
        { s with metadata := { withVersion s.metadata status with nextKeyVersionNumber := toInt (s.metadata.nextKeyVersionNumber + 1) } }
        .primary s.metadata.nextKeyVersionNumber
      rw [hupdate] at hsame
      exact hsame.next_eq
    · cases hadd
  · cases hadd
    rfl

/-- Every key that is added is counted. -/
theorem Consistent.addNewKey_counter {s s' : ManagedKeyset} (h : Consistent P s) {status : KeyStatus} {key : Key}
    {result : Except Exception Int} (hadd : s.addNewKey P status key = some (result, s')) :
    s'.metadata.nextKeyVersionNumber = toInt (s.metadata.nextKeyVersionNumber + 1) := by
  obtain ⟨t, hroom, ht, hsame, -, -⟩ := h.makeRoom status
  unfold ManagedKeyset.addNewKey at hadd
  rw [hroom] at hadd
  simp only [Bool.not_true, Bool.false_eq_true, if_false] at hadd
  split at hadd
  · cases hadd
  · rename_i n u hversion
    have hcount := ht.addKeyVersion_counter hversion
    rw [hsame.next_eq] at hcount
    split at hadd
    · cases hadd
      exact hcount
    · have hmetadata : ∀ {r : Except Exception Bool} {v}, u.addKey P key n = (r, v) → v.metadata = u.metadata := by
        intro r v hkey
        rcases addKey_cases hkey with ⟨-, rfl⟩ | ⟨hash, -, -, -, -, -, rfl, -⟩ <;> rfl
      split at hadd
      all_goals
        rename_i hkey
        cases hadd
        rw [hmetadata hkey]
        exact hcount

end ManagedKeyset

end Cpp
