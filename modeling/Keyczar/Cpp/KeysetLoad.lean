import Keyczar.Cpp.KeysetLifecycle
import Keyczar.Lib.Throwing

/-!
# Loading a key set

The metadata that `CreateFromValue` accepts holds the versions of the list, and the counter is above them when the list says nothing
else. `Read` then gives every version its key and finds the primary one.
-/

namespace Cpp

/-- The version that a member of the list describes. -/
def VersionValue.keyVersion (value : VersionValue) : KeyVersion :=
  ⟨value.versionNumber, .getTypeFromName value.status, value.exportable⟩

/-- Metadata with positive version numbers, and a next version number above them if it has one. -/
structure MetadataValue.Numbered (value : MetadataValue) : Prop where
  positive : ∀ v ∈ value.versions, 0 < v.versionNumber
  next : ∀ next, value.nextKeyVersionNumber = some next → ∀ v ∈ value.versions, v.versionNumber < next
  bounded : value.nextKeyVersionNumber = none → ∀ v ∈ value.versions, v.versionNumber + 1 < 2 ^ 31

namespace KeysetMetadata

/-! ## `CreateFromValue` -/

/-- A turn of the loop adds the version, and sees to the next number when there is none. -/
theorem createVersion_cases {hasNext : Bool} {m m' : KeysetMetadata} {next next' : Int} {value : VersionValue}
    (hpos : 0 < value.versionNumber) (h : createVersion hasNext m next value = some (some (m', next'))) :
    m' = { m with keyVersionsMap := m.keyVersionsMap.insert value.versionNumber value.keyVersion } ∧
    next' = if !hasNext ∧ next ≤ value.versionNumber then toInt (value.versionNumber + 1) else next := by
  have hne : value.versionNumber ≠ 0 := Int.ne_of_gt hpos
  have hassign : m.assignNumber value.keyVersion = some (value.keyVersion, m) := if_neg hne
  unfold createVersion at h
  split at h
  · cases h
  · rw [if_neg (not_lt.mpr (Int.le_of_lt hpos))] at h
    have hadd : m.addVersion value.keyVersion =
        some (if (m.keyVersionsMap.find value.versionNumber).isSome then (false, value.keyVersion, m)
          else (true, value.keyVersion,
            { m with keyVersionsMap := m.keyVersionsMap.insert value.versionNumber value.keyVersion })) := by
      unfold addVersion
      rw [hassign]
      rfl
    rw [show m.addVersion ⟨value.versionNumber, .getTypeFromName value.status, value.exportable⟩ = _ from hadd] at h
    by_cases hfound : (m.keyVersionsMap.find value.versionNumber).isSome
    · rw [if_pos hfound] at h
      cases h
    · rw [if_neg hfound] at h
      dsimp only at h
      by_cases hnext : !hasNext ∧ next ≤ value.versionNumber
      · rw [if_pos (show !hasNext ∧ next ≤ value.keyVersion.versionNumber from hnext)] at h
        rw [if_pos hnext]
        cases h
        exact ⟨rfl, rfl⟩
      · rw [if_neg (show ¬ (!hasNext ∧ next ≤ value.keyVersion.versionNumber) from hnext)] at h
        rw [if_neg hnext]
        cases h
        exact ⟨rfl, rfl⟩

/-- The loop goes on behind the first version. -/
theorem createVersions_cons {hasNext : Bool} {m : KeysetMetadata} {next : Int} {value : VersionValue} {values : List VersionValue}
    {r : KeysetMetadata × Int} (h : createVersions hasNext m next (value :: values) = some (some r)) :
    ∃ m₁ next₁, createVersion hasNext m next value = some (some (m₁, next₁)) ∧
      createVersions hasNext m₁ next₁ values = some (some r) := by
  unfold createVersions at h
  split at h
  · cases h
  · cases h
  · rename_i m₁ next₁ hturn
    exact ⟨m₁, next₁, hturn, h⟩

/-- The loop adds the versions of the list; the next number it computes is above all of them. -/
theorem createVersions_spec {hasNext : Bool} {m m' : KeysetMetadata} {next next' : Int} {values : List VersionValue}
    (hpos : ∀ value ∈ values, 0 < value.versionNumber) (h : createVersions hasNext m next values = some (some (m', next'))) :
    m'.nextKeyVersionNumber = m.nextKeyVersionNumber ∧
    (∀ {n v}, m'.getVersion n = some v → m.getVersion n = some v ∨ ∃ value ∈ values, value.versionNumber = n) ∧
    (hasNext = false → (∀ value ∈ values, value.versionNumber + 1 < 2 ^ 31) →
      next ≤ next' ∧ ∀ value ∈ values, value.versionNumber < next') := by
  induction values generalizing m next with
  | nil =>
    cases h
    refine ⟨rfl, ?_, ?_⟩
    · intro n v hv
      exact Or.inl hv
    · intro _ _
      exact ⟨Int.le_refl _, fun value hmem => nomatch hmem⟩
  | cons value values ih =>
    obtain ⟨m₁, next₁, hturn, h⟩ := createVersions_cons h
    have hvalue : 0 < value.versionNumber := hpos value List.mem_cons_self
    obtain ⟨hm, hnext⟩ := createVersion_cases hvalue hturn
    obtain ⟨hcounter, hversions, habove⟩ := ih (fun v hv => hpos v (List.mem_cons_of_mem _ hv)) h
    refine ⟨hcounter.trans (by rw [hm]), ?_, ?_⟩
    · intro n v hv
      rcases hversions hv with hfound | ⟨w, hw, hn⟩
      · have hget : m₁.getVersion n = if n = value.versionNumber then some value.keyVersion else m.getVersion n := by
          rw [hm]
          exact m.keyVersionsMap.find_insert value.versionNumber n value.keyVersion
        rw [hget] at hfound
        by_cases hn : n = value.versionNumber
        · exact Or.inr ⟨value, List.mem_cons_self, hn.symm⟩
        · rw [if_neg hn] at hfound
          exact Or.inl hfound
      · exact Or.inr ⟨w, List.mem_cons_of_mem _ hw, hn⟩
    · intro hhas hbound
      subst hhas
      have hroom : toInt (value.versionNumber + 1) = value.versionNumber + 1 :=
        toInt_add_one hvalue (hbound value List.mem_cons_self)
      have hle : next ≤ next₁ ∧ value.versionNumber < next₁ := by
        rw [hnext, hroom]
        by_cases hle : next ≤ value.versionNumber
        · rw [if_pos ⟨rfl, hle⟩]
          omega
        · rw [if_neg fun hc => hle hc.2]
          omega
      obtain ⟨hmono, hall⟩ := habove rfl fun v hv => hbound v (List.mem_cons_of_mem _ hv)
      refine ⟨Int.le_trans hle.1 hmono, ?_⟩
      intro v hv
      rcases List.mem_cons.mp hv with rfl | hv
      · exact Int.lt_of_lt_of_le hle.2 hmono
      · exact hall v hv

/-- When the numbers are distinct, the metadata holds the versions of the list. -/
theorem getVersion_createVersions {hasNext : Bool} {m m' : KeysetMetadata} {next next' : Int} {done values : List VersionValue}
    (hm : ∀ n v, m.getVersion n = some v ↔ ∃ value ∈ done, value.versionNumber = n ∧ value.keyVersion = v)
    (hpos : ∀ value ∈ values, 0 < value.versionNumber)
    (hdistinct : ((done ++ values).map VersionValue.versionNumber).Nodup)
    (h : createVersions hasNext m next values = some (some (m', next'))) (n : Int) (v : KeyVersion) :
    m'.getVersion n = some v ↔ ∃ value ∈ done ++ values, value.versionNumber = n ∧ value.keyVersion = v := by
  induction values generalizing m next done with
  | nil =>
    cases h
    rw [List.append_nil]
    exact hm n v
  | cons value values ih =>
    obtain ⟨m₁, next₁, hturn, h⟩ := createVersions_cons h
    obtain ⟨rfl, -⟩ := createVersion_cases (hpos value List.mem_cons_self) hturn
    have hnew : ∀ w ∈ done, w.versionNumber ≠ value.versionNumber := by
      intro w hw
      rw [List.map_append, List.nodup_append] at hdistinct
      exact hdistinct.2.2 _ (List.mem_map_of_mem hw) _ (List.mem_map_of_mem List.mem_cons_self)
    rw [List.append_cons] at hdistinct ⊢
    refine ih ?_ (fun w hw => hpos w (List.mem_cons_of_mem _ hw)) hdistinct h
    intro n v
    have hget : ({ m with keyVersionsMap := m.keyVersionsMap.insert value.versionNumber value.keyVersion } : KeysetMetadata).getVersion n
        = if n = value.versionNumber then some value.keyVersion else m.getVersion n :=
      m.keyVersionsMap.find_insert value.versionNumber n value.keyVersion
    rw [hget]
    simp only [List.mem_append, List.mem_singleton, or_and_right, exists_or, exists_eq_left, ← hm n v]
    by_cases hn : n = value.versionNumber
    · subst hn
      have hnone : m.getVersion value.versionNumber ≠ some v := by
        intro hv
        obtain ⟨w, hw, heq, -⟩ := (hm _ _).mp hv
        exact hnew w hw heq
      simp [hnone]
    · have hn' : ¬ value.versionNumber = n := fun hc => hn hc.symm
      rw [if_neg hn]
      simp only [hn', false_and, or_false]

/-- The next number that the loop computes is the first one or follows that of a version. -/
theorem next_createVersions {m m' : KeysetMetadata} {next next' : Int} {values : List VersionValue}
    (hpos : ∀ value ∈ values, 0 < value.versionNumber) (hbound : ∀ value ∈ values, value.versionNumber + 1 < 2 ^ 31)
    (h : createVersions false m next values = some (some (m', next'))) :
    next' = next ∨ ∃ value ∈ values, next' = value.versionNumber + 1 := by
  induction values generalizing m next with
  | nil =>
    cases h
    exact Or.inl rfl
  | cons value values ih =>
    obtain ⟨m₁, next₁, hturn, h⟩ := createVersions_cons h
    have hvalue : 0 < value.versionNumber := hpos value List.mem_cons_self
    obtain ⟨-, hnext⟩ := createVersion_cases hvalue hturn
    rw [toInt_add_one hvalue (hbound value List.mem_cons_self)] at hnext
    rcases ih (fun w hw => hpos w (List.mem_cons_of_mem _ hw)) (fun w hw => hbound w (List.mem_cons_of_mem _ hw)) h with
      rfl | ⟨w, hw, heq⟩
    · split at hnext
      · exact Or.inr ⟨value, List.mem_cons_self, hnext⟩
      · exact Or.inl hnext
    · exact Or.inr ⟨w, List.mem_cons_of_mem _ hw, heq⟩

/-- What is accepted without a next number: the metadata holds the versions of the list, and while the numbers have room the counter
is the first number above them. -/
theorem createFromValue_holds {value : MetadataValue} (hnone : value.nextKeyVersionNumber = none)
    (hpos : ∀ v ∈ value.versions, 0 < v.versionNumber) (hdistinct : (value.versions.map VersionValue.versionNumber).Nodup)
    {m : KeysetMetadata} (h : createFromValue value = some (some m)) :
    (∀ n v, m.getVersion n = some v ↔ ∃ w ∈ value.versions, w.versionNumber = n ∧ w.keyVersion = v) ∧
    ((∀ v ∈ value.versions, v.versionNumber + 1 < 2 ^ 31) → 0 < m.nextKeyVersionNumber ∧
      (m.nextKeyVersionNumber = 1 ∨ ∃ w ∈ value.versions, m.nextKeyVersionNumber = w.versionNumber + 1) ∧
      ∀ w ∈ value.versions, w.versionNumber < m.nextKeyVersionNumber) := by
  unfold createFromValue at h
  rw [hnone] at h
  dsimp only at h
  split at h
  · cases h
  · rw [if_neg (by decide)] at h
    split at h
    · cases h
    · cases h
    · rename_i m₁ next₁ hloop
      cases h
      refine ⟨?_, ?_⟩
      · have hempty : ∀ {m : KeysetMetadata}, m.keyVersionsMap = .empty → ∀ n v, m.getVersion n = some v ↔
            ∃ w ∈ ([] : List VersionValue), w.versionNumber = n ∧ w.keyVersion = v := by
          intro m hm n v
          unfold getVersion
          rw [hm]
          exact iff_of_false nofun fun ⟨w, hw, _⟩ => nomatch hw
        have hget := getVersion_createVersions (hempty rfl) hpos hdistinct hloop
        exact hget
      · intro hbound
        obtain ⟨hle, hall⟩ := (createVersions_spec hpos hloop).2.2 rfl hbound
        exact ⟨Int.lt_of_lt_of_le Int.zero_lt_one hle, next_createVersions hpos hbound hloop, hall⟩

theorem keyType_createVersions {hasNext : Bool} {m m' : KeysetMetadata} {next next' : Int} {values : List VersionValue}
    (hpos : ∀ v ∈ values, 0 < v.versionNumber) (h : createVersions hasNext m next values = some (some (m', next'))) :
    m'.keyType = m.keyType := by
  induction values generalizing m next with
  | nil =>
    cases h
    rfl
  | cons value values ih =>
    obtain ⟨m₁, next₁, hturn, h⟩ := createVersions_cons h
    obtain ⟨hm, -⟩ := createVersion_cases (hpos value List.mem_cons_self) hturn
    rw [ih (fun w hw => hpos w (List.mem_cons_of_mem _ hw)) h, hm]

/-- The type of the keys is known. -/
theorem keyType_createFromValue {value : MetadataValue} {m : KeysetMetadata} (hpos : ∀ v ∈ value.versions, 0 < v.versionNumber)
    (h : createFromValue value = some (some m)) : m.keyType ≠ .undefined := by
  unfold createFromValue at h
  dsimp only at h
  split at h
  · cases h
  · rename_i hundefined
    split at h
    · cases h
    · split at h
      · cases h
      · cases h
      · rename_i m₁ next₁ hloop
        have hsame := keyType_createVersions hpos hloop
        split at h
        all_goals
          cases h
          exact fun hc => hundefined (Or.inl (hsame.symm.trans hc))

/-- The metadata that is accepted: its versions are positive, and below the next number. -/
theorem createFromValue_spec {value : MetadataValue} (hnum : value.Numbered) {m : KeysetMetadata}
    (h : createFromValue value = some (some m)) :
    0 < m.nextKeyVersionNumber ∧ ∀ {n v}, m.getVersion n = some v → 0 < n ∧ n < m.nextKeyVersionNumber := by
  unfold createFromValue at h
  dsimp only at h
  split at h
  · cases h
  · split at h
    · cases h
    · rename_i hpos
      split at h
      · cases h
      · cases h
      · rename_i m₁ next₁ hloop
        obtain ⟨hcounter, hversions, habove⟩ := createVersions_spec hnum.positive hloop
        have hmem : ∀ {n v}, m₁.getVersion n = some v → ∃ value' ∈ value.versions, value'.versionNumber = n := by
          intro n v hv
          rcases hversions hv with hempty | hfound
          · cases hempty
          · exact hfound
        cases hnext : value.nextKeyVersionNumber with
        | none =>
          rw [hnext] at h hpos habove
          cases h
          obtain ⟨hle, hall⟩ := habove rfl (hnum.bounded hnext)
          refine ⟨?_, ?_⟩
          · show 0 < next₁
            exact Int.lt_of_lt_of_le (not_le.mp hpos) hle
          · intro n v hv
            obtain ⟨w, hw, rfl⟩ := hmem hv
            exact ⟨hnum.positive w hw, hall w hw⟩
        | some next =>
          rw [hnext] at h hpos hcounter
          cases h
          rw [hcounter]
          refine ⟨not_le.mp hpos, ?_⟩
          intro n v hv
          obtain ⟨w, hw, rfl⟩ := hmem hv
          exact ⟨hnum.positive w hw, hnum.next next hnext w hw⟩

end KeysetMetadata

namespace ManagedKeyset

variable {P : Primitives}

/-! ## `Read` -/

/-- What holds after some versions were read. -/
structure Reading (P : Primitives) (metadata : KeysetMetadata) (read : List (Int × KeyVersion)) (s : ManagedKeyset) : Prop where
  metadata_eq : s.metadata = metadata
  hashes : KeyHashes P s
  keys : ∀ n, (s.getKey n).isSome ↔ ∃ v, (n, v) ∈ read
  primary : s.primaryKeyVersionNumber = 0 ∧ (∀ n v, (n, v) ∈ read → v.keyStatus ≠ .primary) ∨
    0 < s.primaryKeyVersionNumber ∧ ∀ n, n = s.primaryKeyVersionNumber ↔ ∃ v, (n, v) ∈ read ∧ v.keyStatus = .primary

theorem readVersion_cases {reader : KeysetReader} {s s' : ManagedKeyset} {version : Int × KeyVersion}
    (h : readVersion P reader true s version = .ok (some s')) :
    ∃ key hash, 0 < version.1 ∧ key.hash P = some hash ∧ s.hashMap hash = none ∧
      (version.2.keyStatus = .primary ∧ ¬ 0 < s.primaryKeyVersionNumber ∧
          s' = { s.withKey P key version.1 hash with primaryKeyVersionNumber := version.1 } ∨
        version.2.keyStatus ≠ .primary ∧ s' = s.withKey P key version.1 hash) := by
  unfold readVersion at h
  simp only [if_true] at h
  split at h
  · cases h
  · rename_i key hkey
    split at h
    · cases h
    · cases h
    · rename_i t hadded
      rcases addKey_cases hadded with ⟨hfalse, -⟩ | ⟨hash, hpos, -, -, hhash, hfree, rfl, -⟩
      · cases hfalse
      · refine ⟨key, hash, hpos, hhash, hfree, ?_⟩
        by_cases hst : version.2.keyStatus = .primary
        · simp only [pure_bind, hst, if_true] at h
          by_cases hp : 0 < (s.withKey P key version.1 hash).primaryKeyVersionNumber
          · rw [if_pos hp] at h
            cases h
          · rw [if_neg hp] at h
            cases h
            exact Or.inl ⟨hst, hp, rfl⟩
        · simp only [pure_bind, hst, if_false] at h
          cases h
          exact Or.inr ⟨hst, rfl⟩

theorem Reading.readVersion {reader : KeysetReader} {metadata : KeysetMetadata} {read : List (Int × KeyVersion)}
    {s s' : ManagedKeyset} {version : Int × KeyVersion} (hr : Reading P metadata read s)
    (h : readVersion P reader true s version = .ok (some s')) : Reading P metadata (read ++ [version]) s' := by
  obtain ⟨n, v⟩ := version
  obtain ⟨key, hash, hpos, hhash, hfree, hcase⟩ := readVersion_cases h
  have hkeys : ∀ m, ((s.withKey P key n hash).getKey m).isSome ↔ ∃ w, (m, w) ∈ read ++ [(n, v)] := by
    intro m
    rw [getKey_withKey]
    by_cases hm : m = n
    · subst hm
      rw [if_pos rfl]
      exact iff_of_true rfl ⟨v, List.mem_append_right _ List.mem_cons_self⟩
    · rw [if_neg hm, hr.keys m]
      constructor
      · rintro ⟨w, hw⟩
        exact ⟨w, List.mem_append_left _ hw⟩
      · rintro ⟨w, hw⟩
        rcases List.mem_append.mp hw with hw | hw
        · exact ⟨w, hw⟩
        · cases List.mem_singleton.mp hw
          exact absurd rfl hm
  have hhashes := hr.hashes.withKey hhash hfree n
  rcases hcase with ⟨hst, hp, rfl⟩ | ⟨hst, rfl⟩
  · refine ⟨hr.metadata_eq, hhashes.congr rfl rfl, hkeys, Or.inr ⟨hpos, ?_⟩⟩
    intro m
    constructor
    · rintro rfl
      exact ⟨v, List.mem_append_right _ List.mem_cons_self, hst⟩
    · rintro ⟨w, hw, hwst⟩
      rcases List.mem_append.mp hw with hw | hw
      · rcases hr.primary with ⟨-, hnone⟩ | ⟨hpos', -⟩
        · exact absurd hwst (hnone m w hw)
        · exact absurd hpos' hp
      · cases List.mem_singleton.mp hw
        rfl
  · refine ⟨hr.metadata_eq, hhashes, hkeys, ?_⟩
    rcases hr.primary with ⟨hzero, hnone⟩ | ⟨hpos', hiff⟩
    · refine Or.inl ⟨hzero, ?_⟩
      intro m w hw
      rcases List.mem_append.mp hw with hw | hw
      · exact hnone m w hw
      · cases List.mem_singleton.mp hw
        exact hst
    · refine Or.inr ⟨hpos', ?_⟩
      intro m
      show m = s.primaryKeyVersionNumber ↔ _
      rw [hiff m]
      constructor
      · rintro ⟨w, hw, hwst⟩
        exact ⟨w, List.mem_append_left _ hw, hwst⟩
      · rintro ⟨w, hw, hwst⟩
        rcases List.mem_append.mp hw with hw | hw
        · exact ⟨w, hw, hwst⟩
        · cases List.mem_singleton.mp hw
          exact absurd hwst hst

theorem Reading.readVersions {reader : KeysetReader} {metadata : KeysetMetadata} {read rest : List (Int × KeyVersion)}
    {s s' : ManagedKeyset} (hr : Reading P metadata read s) (h : readVersions P reader true s rest = .ok (some s')) :
    Reading P metadata (read ++ rest) s' := by
  induction rest generalizing read s with
  | nil =>
    cases h
    rwa [List.append_nil]
  | cons version rest ih =>
    unfold ManagedKeyset.readVersions at h
    obtain ⟨turn, hturn, h⟩ := Throwing.ok_of_bind h
    cases turn with
    | none => cases h
    | some t =>
      have ht := ih (hr.readVersion hturn) h
      rwa [List.append_assoc] at ht

/-- A key set is consistent when its metadata has positive numbers below the next one, and every version was read. -/
theorem Reading.consistent {metadata : KeysetMetadata} {s : ManagedKeyset}
    (hread : Reading P metadata metadata.keyVersionsMap.entries s) (hnext : 0 < metadata.nextKeyVersionNumber)
    (hversions : ∀ {n v}, metadata.getVersion n = some v → 0 < n ∧ n < metadata.nextKeyVersionNumber) : Consistent P s := by
  have hmem : ∀ {n v}, (n, v) ∈ metadata.keyVersionsMap.entries ↔ s.metadata.getVersion n = some v := by
    intro n v
    rw [hread.metadata_eq]
    exact metadata.keyVersionsMap.mem_entries_iff
  have hprimary : ∀ n, s.lifecycle.status n = some .primary ↔
      ∃ v, (n, v) ∈ metadata.keyVersionsMap.entries ∧ v.keyStatus = .primary := by
    intro n
    unfold lifecycle
    rw [Option.map_eq_some_iff]
    constructor
    · rintro ⟨v, hv, hst⟩
      exact ⟨v, hmem.mpr hv, (KeyStatus.status_eq_primary_iff _).mp hst⟩
    · rintro ⟨v, hv, hst⟩
      exact ⟨v, hmem.mp hv, (KeyStatus.status_eq_primary_iff _).mpr hst⟩
  refine ⟨⟨?_, ?_, ?_⟩, hread.hashes, ?_, ?_⟩
  · intro n v hv
    rw [hread.metadata_eq] at hv
    exact (hversions hv).1
  · intro n
    rw [hprimary]
    rcases hread.primary with ⟨hzero, hnone⟩ | ⟨hpos, hiff⟩
    · refine iff_of_false ?_ ?_
      · rw [show s.lifecycle.primary = none from if_pos hzero]
        exact nofun
      · rintro ⟨v, hv, hst⟩
        exact hnone n v hv hst
    · rw [← hiff n, show s.lifecycle.primary = some s.primaryKeyVersionNumber from if_neg (Int.ne_of_gt hpos), Option.some_inj]
      exact eq_comm
  · intro n hn
    obtain ⟨v, hv⟩ := Option.ne_none_iff_exists'.mp fun hnone => hn (status_lifecycle_of_none hnone)
    show n < s.metadata.nextKeyVersionNumber
    rw [hread.metadata_eq] at hv ⊢
    exact (hversions hv).2
  · intro n
    rw [Bool.eq_iff_iff, hread.keys n, Option.isSome_iff_exists]
    exact exists_congr fun v => hmem
  · rw [hread.metadata_eq]
    exact hnext

/-- `Read` goes through all versions of the metadata that is accepted. -/
theorem reading_of_read {reader : KeysetReader} {value : MetadataValue} {s : ManagedKeyset}
    (hvalue : reader.readMetadata = some value) (h : read P reader true = some (.ok (some s))) :
    KeysetMetadata.createFromValue value = some (some s.metadata) ∧
      Reading P s.metadata s.metadata.keyVersionsMap.entries s := by
  unfold ManagedKeyset.read at h
  rw [hvalue] at h
  dsimp only at h
  split at h
  · cases h
  · cases h
  · rename_i metadata hmeta
    have hempty : Reading P metadata [] { metadata } := by
      refine ⟨rfl, ⟨?_, ?_⟩, ?_, Or.inl ⟨rfl, ?_⟩⟩
      · intro n key hk
        cases hk
      · intro n n' key key' hk
        cases hk
      · intro n
        exact iff_of_false nofun fun ⟨v, hv⟩ => nomatch hv
      · intro n v hv
        cases hv
    have hread := hempty.readVersions (Option.some.inj h)
    rw [List.nil_append] at hread
    rw [hread.metadata_eq]
    exact ⟨hmeta, hread⟩

/-- A key set that was read is consistent. -/
theorem consistent_of_read {reader : KeysetReader} {value : MetadataValue} {s : ManagedKeyset}
    (hvalue : reader.readMetadata = some value) (hnum : value.Numbered) (h : read P reader true = some (.ok (some s))) :
    Consistent P s := by
  obtain ⟨hmeta, hread⟩ := reading_of_read hvalue h
  obtain ⟨hnext, hversions⟩ := KeysetMetadata.createFromValue_spec hnum hmeta
  exact hread.consistent hnext hversions

/-- With the next number of a lifecycle that holds the versions of the list, a key set that was read is consistent and has that
lifecycle; and the counter is that number while it can be. -/
theorem holds_of_read {reader : KeysetReader} {value : MetadataValue} {s : ManagedKeyset}
    (hvalue : reader.readMetadata = some value) (hnone : value.nextKeyVersionNumber = none)
    (hpos : ∀ v ∈ value.versions, 0 < v.versionNumber) (hdistinct : (value.versions.map VersionValue.versionNumber).Nodup)
    (h : read P reader true = some (.ok (some s))) {versions : List (Int × Lifecycle.Status)}
    (hversions : ∀ n status, (n, status) ∈ versions ↔
      ∃ v ∈ value.versions, v.versionNumber = n ∧ (KeyStatus.getTypeFromName v.status).status = status)
    {t : Lifecycle.State} (ht : Lifecycle.Holds versions t) (hsound : Lifecycle.Sound t) :
    Consistent P (s.withNext t.next) ∧ (s.withNext t.next).lifecycle = t ∧
      (t.next < 2 ^ 31 → s.metadata.nextKeyVersionNumber = t.next) := by
  obtain ⟨hmeta, hread⟩ := reading_of_read hvalue h
  obtain ⟨hget, hcounter⟩ := KeysetMetadata.createFromValue_holds hnone hpos hdistinct hmeta
  have hstatus : s.lifecycle.status = t.status := by
    funext n
    refine Option.ext fun status => ?_
    rw [ht.status_iff, hversions]
    show (s.metadata.getVersion n).map (fun v => v.keyStatus.status) = some status ↔ _
    rw [Option.map_eq_some_iff]
    constructor
    · rintro ⟨v, hv, rfl⟩
      obtain ⟨w, hw, hn, rfl⟩ := (hget n v).mp hv
      exact ⟨w, hw, hn, rfl⟩
    · rintro ⟨w, hw, hn, rfl⟩
      exact ⟨w.keyVersion, (hget n _).mpr ⟨w, hw, hn, rfl⟩, rfl⟩
  have hlt : ∀ {n v}, s.metadata.getVersion n = some v → 0 < n ∧ n < t.next := by
    intro n v hv
    obtain ⟨w, hw, rfl, -⟩ := (hget n v).mp hv
    refine ⟨hpos w hw, hsound.lt_next _ ?_⟩
    rw [← hstatus, status_lifecycle_of_getVersion hv]
    exact nofun
  have hconsistent : Consistent P (s.withNext t.next) := by
    refine Reading.consistent (s := s.withNext t.next) ⟨rfl, hread.hashes.congr rfl rfl, hread.keys, hread.primary⟩ ht.next_pos ?_
    exact fun hv => hlt hv
  refine ⟨hconsistent, hconsistent.statuses.sound.ext hsound hstatus rfl, ?_⟩
  intro hroom
  have hbound : ∀ v ∈ value.versions, v.versionNumber + 1 < 2 ^ 31 := by
    intro v hv
    have := (hlt ((hget _ _).mpr ⟨v, hv, rfl, rfl⟩)).2
    omega
  obtain ⟨hnext, hmem, habove⟩ := hcounter hbound
  have hentry : ∀ {w}, w ∈ value.versions → (w.versionNumber, (KeyStatus.getTypeFromName w.status).status) ∈ versions :=
    fun hw => (hversions _ _).mpr ⟨_, hw, rfl, rfl⟩
  refine Int.le_antisymm ?_ ?_
  · rcases hmem with hone | ⟨w, hw, heq⟩
    · rw [hone]
      exact ht.next_pos
    · rw [heq]
      exact (hlt ((hget _ _).mpr ⟨w, hw, rfl, rfl⟩)).2
  · rcases ht.next_mem with hone | ⟨⟨n, status⟩, hv, heq⟩
    · rw [hone]
      exact hnext
    · obtain ⟨w, hw, rfl, -⟩ := (hversions n status).mp hv
      rw [heq]
      exact habove w hw

end ManagedKeyset

end Cpp
