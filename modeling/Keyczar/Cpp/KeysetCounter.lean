import Keyczar.Cpp.KeysetHistory

/-!
# Key sets whose counter has run out

The counter of a key set is an `int`, the numbers of a lifecycle go on. As long as no version is added that has no number of its own,
the other operations do not look at the counter; and the last number there is can still be given out.
-/

namespace Cpp

namespace ManagedKeyset

variable {P : Primitives}

/-! ## Operations that do not look at the counter -/

theorem promoteKey_withNext (s : ManagedKeyset) (next n : Int) :
    (s.withNext next).promoteKey n = ((s.promoteKey n).1, (s.promoteKey n).2.withNext next) := by
  unfold promoteKey
  rw [getVersion_withNext]
  by_cases hpos : n ≤ 0
  · rw [if_pos hpos, if_pos hpos]
  · rw [if_neg hpos, if_neg hpos]
    cases s.metadata.getVersion n with
    | none => rfl
    | some v =>
      dsimp only
      cases v.keyStatus with
      | primary => rfl
      | undefined => rfl
      | active => exact s.updateKeyStatus_withNext next .primary n
      | inactive => exact s.updateKeyStatus_withNext next .active n

theorem demoteKey_withNext (s : ManagedKeyset) (next n : Int) :
    (s.withNext next).demoteKey n = ((s.demoteKey n).1, (s.demoteKey n).2.withNext next) := by
  unfold demoteKey
  rw [getVersion_withNext]
  by_cases hpos : n ≤ 0
  · rw [if_pos hpos, if_pos hpos]
  · rw [if_neg hpos, if_neg hpos]
    cases s.metadata.getVersion n with
    | none => rfl
    | some v =>
      dsimp only
      cases v.keyStatus with
      | inactive => rfl
      | undefined => rfl
      | active => exact s.updateKeyStatus_withNext next .inactive n
      | primary =>
        dsimp only
        rw [updateKeyStatus_withNext]
        cases (s.updateKeyStatus .active n).1 <;> rfl

theorem removeKey_withNext (s : ManagedKeyset) (next n : Int) :
    (s.withNext next).removeKey P n = ((s.removeKey P n).1, (s.removeKey P n).2.withNext next) := by
  unfold removeKey
  rw [versionNumberMap_withNext]
  cases s.versionNumberMap.find n with
  | none => rfl
  | some key =>
    dsimp only
    cases key.hash P with
    | none => rfl
    | some hash =>
      dsimp only
      rw [hashMap_withNext]
      by_cases hnone : (s.hashMap hash).isNone
      · rw [if_pos hnone, if_pos hnone]
      · rw [if_neg hnone, if_neg hnone]
        rfl

theorem revokeKey_withNext (s : ManagedKeyset) (next n : Int) :
    (s.withNext next).revokeKey P n = ((s.revokeKey P n).1, (s.revokeKey P n).2.withNext next) := by
  have hremove : ({ s.withNext next with metadata := ((s.withNext next).metadata.removeVersion n).2 } : ManagedKeyset) =
      ({ s with metadata := (s.metadata.removeVersion n).2 } : ManagedKeyset).withNext next := by
    unfold KeysetMetadata.removeVersion withNext
    dsimp only
    split <;> rfl
  unfold revokeKey
  rw [getVersion_withNext]
  by_cases hpos : n ≤ 0
  · rw [if_pos hpos, if_pos hpos]
  · rw [if_neg hpos, if_neg hpos]
    cases s.metadata.getVersion n with
    | none => rfl
    | some v =>
      dsimp only
      by_cases hst : v.keyStatus ≠ .inactive
      · rw [if_pos hst, if_pos hst]
      · rw [if_neg hst, if_neg hst, hremove, removeKey_withNext]

/-! ## Key sets and lifecycles -/

/-- A key set simulates a lifecycle: with the counter of the lifecycle it is consistent and has that lifecycle, and the counter is its
own while it can be. -/
structure Simulates (P : Primitives) (s : ManagedKeyset) (t : Lifecycle.State) : Prop where
  consistent : Consistent P (s.withNext t.next)
  lifecycle_eq : (s.withNext t.next).lifecycle = t
  counter : t.next < 2 ^ 31 → s.metadata.nextKeyVersionNumber = t.next
  keyType : s.metadata.keyType ≠ .undefined

variable {s : ManagedKeyset} {t : Lifecycle.State}

/-- A key set that was read simulates every sound lifecycle that holds the versions of the list. -/
theorem simulates_of_read {reader : KeysetReader} {value : MetadataValue} (hvalue : reader.readMetadata = some value)
    (hnone : value.nextKeyVersionNumber = none) (hpos : ∀ v ∈ value.versions, 0 < v.versionNumber)
    (hdistinct : (value.versions.map VersionValue.versionNumber).Nodup) (h : read P reader true = some (.ok (some s)))
    {versions : List (Int × Lifecycle.Status)}
    (hversions : ∀ n status, (n, status) ∈ versions ↔
      ∃ v ∈ value.versions, v.versionNumber = n ∧ (KeyStatus.getTypeFromName v.status).status = status)
    (ht : Lifecycle.Holds versions t) (hsound : Lifecycle.Sound t) : Simulates P s t := by
  obtain ⟨hconsistent, hlife, hcounter⟩ := holds_of_read hvalue hnone hpos hdistinct h hversions ht hsound
  exact ⟨hconsistent, hlife, hcounter, KeysetMetadata.keyType_createFromValue hpos (reading_of_read hvalue h).1⟩

/-- An operation answers `false` exactly when the lifecycle refuses, and then changes nothing; else both take the same step. -/
def Agrees (P : Primitives) (s : ManagedKeyset) (o : Option Lifecycle.State) (result : Bool × ManagedKeyset) : Prop :=
  match o with
  | some t' => result.1 = true ∧ Simulates P result.2 t'
  | none => result = (false, s)

/-- An operation that leaves the counter alone and agrees with the lifecycle when the counter is that of the lifecycle. -/
theorem Simulates.of_spec {result : Bool × ManagedKeyset} {o : Option Lifecycle.State} (h : Simulates P s t)
    (hcounter : result.2.metadata.nextKeyVersionNumber = s.metadata.nextKeyVersionNumber)
    (htype : result.2.metadata.keyType = s.metadata.keyType) (hconsistent : Consistent P (result.2.withNext t.next))
    (hspec : match o with
      | some t' => result.1 = true ∧ (result.2.withNext t.next).lifecycle = t'
      | none => (result.1, result.2.withNext t.next) = (false, s.withNext t.next)) : Agrees P s o result := by
  cases o with
  | some t' =>
    obtain ⟨htrue, hlife⟩ := hspec
    have hnext : t'.next = t.next := by
      rw [← hlife]
      rfl
    refine ⟨htrue, ?_, ?_, ?_, ?_⟩
    · rw [hnext]
      exact hconsistent
    · rw [hnext]
      exact hlife
    · rw [hnext, hcounter]
      exact h.counter
    · rw [htype]
      exact h.keyType
  | none =>
    obtain ⟨hfalse, hstate⟩ := Prod.mk.inj hspec
    refine Prod.ext hfalse ?_
    calc result.2 = (result.2.withNext t.next).withNext result.2.metadata.nextKeyVersionNumber := rfl
      _ = (s.withNext t.next).withNext s.metadata.nextKeyVersionNumber := by rw [hstate, hcounter]
      _ = s := rfl

theorem Simulates.promoteKey (h : Simulates P s t) (n : Int) : Agrees P s (t.promote n) (s.promoteKey n) := by
  have hspec := h.consistent.statuses.promoteKey n
  have hconsistent := h.consistent.promoteKey n
  rw [promoteKey_withNext] at hconsistent hspec
  rw [h.lifecycle_eq] at hspec
  have hsame := sameKeys_promoteKey s n
  exact h.of_spec hsame.next_eq hsame.keyType_eq hconsistent hspec

theorem Simulates.demoteKey (h : Simulates P s t) (n : Int) : Agrees P s (t.demote n) (s.demoteKey n) := by
  have hspec := h.consistent.statuses.demoteKey n
  have hconsistent := h.consistent.demoteKey n
  rw [demoteKey_withNext] at hconsistent hspec
  rw [h.lifecycle_eq] at hspec
  have hsame := sameKeys_demoteKey s n
  exact h.of_spec hsame.next_eq hsame.keyType_eq hconsistent hspec

theorem metadata_removeKey (s : ManagedKeyset) (n : Int) : (s.removeKey P n).2.metadata = s.metadata := by
  unfold removeKey
  split
  · rfl
  · split
    · rfl
    · split <;> rfl

/-- Revoking leaves the counter and the type alone. -/
theorem revokeKey_next_type (s : ManagedKeyset) (n : Int) :
    (s.revokeKey P n).2.metadata.nextKeyVersionNumber = s.metadata.nextKeyVersionNumber ∧
    (s.revokeKey P n).2.metadata.keyType = s.metadata.keyType := by
  rcases s.revokeKey_cases (P := P) n with heq | ⟨v, -, -, heq⟩
  · rw [heq]
    exact ⟨rfl, rfl⟩
  · rw [heq, metadata_removeKey]
    refine ⟨KeysetMetadata.nextKeyVersionNumber_removeVersion _ _, ?_⟩
    unfold KeysetMetadata.removeVersion
    split <;> rfl

theorem Simulates.revokeKey (h : Simulates P s t) (n : Int) : Agrees P s (t.revoke n) (s.revokeKey P n) := by
  have hspec := h.consistent.revokeKey_spec n
  have hconsistent := h.consistent.revokeKey n
  rw [revokeKey_withNext] at hconsistent hspec
  rw [h.lifecycle_eq] at hspec
  obtain ⟨hnext, htype⟩ := s.revokeKey_next_type (P := P) n
  refine h.of_spec hnext htype hconsistent ?_
  cases hr : t.revoke n with
  | none =>
    rw [hr] at hspec
    exact hspec
  | some t' =>
    rw [hr] at hspec
    obtain ⟨key, hash, -, -, heq, hlife⟩ := hspec
    obtain ⟨htrue, hstate⟩ := Prod.mk.inj heq
    refine ⟨htrue, ?_⟩
    rw [hstate]
    exact hlife

/-- `GenerateKey` adds a version with the next number, while there is one, when a key comes whose hash is not in use; unless its buggy
hash throws. -/
theorem Simulates.generateKey (h : Simulates P s t) (hroom : t.next < 2 ^ 31) (status : KeyStatus) {generated : List (Option Key)}
    {key : Key} (hkey : s.generateUnusedKey P generated = some (some key)) :
    ∃ result s', s.generateKey P status generated = some (result, s') ∧ Simulates P s' (t.add status.status) ∧
      (result = .ok t.next ∨ ∃ e, key.buggyHash P = .error e ∧ result = .error e) := by
  have hself : s.withNext t.next = s := by
    rw [← h.counter hroom]
    rfl
  have hconsistent : Consistent P s := by
    have := h.consistent
    rwa [hself] at this
  have hlife : s.lifecycle = t := by
    have := h.lifecycle_eq
    rwa [hself] at this
  obtain ⟨hash, hhash, hfree⟩ := generateUnusedKey_spec hkey
  obtain ⟨result, s', hadd, hnew, hs'⟩ := hconsistent.addNewKey_counted status hhash hfree
  have hcall : s.generateKey P status generated = some (result, s'.withNext (toInt (s.metadata.nextKeyVersionNumber + 1))) := by
    unfold ManagedKeyset.generateKey
    rw [if_neg h.keyType, hkey]
    exact hadd
  have hnext : (t.add status.status).next = t.next + 1 := rfl
  refine ⟨_, _, hcall, ⟨?_, ?_, ?_, ?_⟩, ?_⟩
  · rw [hnext, ← h.counter hroom, ← hnew.next_eq]
    exact hs'
  · rw [hnext, ← h.counter hroom, ← hnew.next_eq, ← hlife, ← hnew.lifecycle_eq]
    rfl
  · intro hlt
    rw [hnext] at hlt ⊢
    rw [h.counter hroom] at *
    have hpos := hconsistent.next_pos
    rw [h.counter hroom] at hpos
    exact toInt_add_one hpos hlt
  · show s'.metadata.keyType ≠ .undefined
    rw [hnew.keyType_eq]
    exact h.keyType
  · rcases hnew.result_eq with hok | ⟨e, he⟩
    · rw [h.counter hroom] at hok
      exact Or.inl hok
    · subst he
      exact Or.inr ⟨e, buggyHash_of_addNewKey hadd, rfl⟩

end ManagedKeyset

end Cpp
