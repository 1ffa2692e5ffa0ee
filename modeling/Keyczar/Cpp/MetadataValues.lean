import Keyczar.Cpp.KeysetLoad

/-!
# Metadata as a dictionary

What `GetValue` writes and `CreateFromValue` reads. A dictionary without a next version number, such as one for a public key set, has it
recovered: the loop over the versions keeps a number above those it has seen beside the counter that the versions without a number get
theirs from.
-/

namespace Cpp

/-! ## `GetValue` -/

/-- `KeyStatus::GetNameFromType`. -/
def KeyStatus.getNameFromType : KeyStatus → String
  | .primary => "PRIMARY"
  | .active => "ACTIVE"
  | .inactive => "INACTIVE"
  | .undefined => ""

/-- `KeyType::GetNameFromType`. -/
def KeyType.getNameFromType : KeyType → String
  | .aes => "AES"
  | .hmac => "HMAC"
  | .dsaPriv => "DSA_PRIV"
  | .dsaPub => "DSA_PUB"
  | .ecdsaPriv => "ECDSA_PRIV"
  | .ecdsaPub => "ECDSA_PUB"
  | .rsaPriv => "RSA_PRIV"
  | .rsaPub => "RSA_PUB"
  | .undefined => ""

/-- `KeyPurpose::GetNameFromType`. -/
def KeyPurpose.getNameFromType : KeyPurpose → String
  | .decryptAndEncrypt => "DECRYPT_AND_ENCRYPT"
  | .encrypt => "ENCRYPT"
  | .signAndVerify => "SIGN_AND_VERIFY"
  | .verify => "VERIFY"
  | .undefined => ""

/-- `KeyVersion::GetValue`. -/
def KeyVersion.getValue (v : KeyVersion) : Option VersionValue :=
  let keyStatusName := v.keyStatus.getNameFromType
  if keyStatusName = "" then none else some ⟨v.versionNumber, keyStatusName, v.exportable⟩

/-- The value of a version whose status has a name. -/
def KeyVersion.value (v : KeyVersion) : VersionValue := ⟨v.versionNumber, v.keyStatus.getNameFromType, v.exportable⟩

theorem KeyVersion.getValue_eq (v : KeyVersion) :
    v.getValue = if v.keyStatus = .undefined then none else some v.value := by
  unfold getValue value
  cases v.keyStatus <;> rfl

/-- The status is read by its name. -/
theorem KeyVersion.keyVersion_value (v : KeyVersion) : v.value.keyVersion = v := by
  obtain ⟨n, status, exportable⟩ := v
  cases status <;> rfl

theorem KeyType.getTypeFromName_getNameFromType (t : KeyType) : getTypeFromName t.getNameFromType = t := by
  cases t <;> rfl

theorem KeyPurpose.getTypeFromName_getNameFromType (t : KeyPurpose) : getTypeFromName t.getNameFromType = t := by
  cases t <;> rfl

/-- The dictionary that `GetValue` makes. A version without a value is a null pointer in its list. -/
structure MetadataDictionary where
  name : String
  type : String
  purpose : String
  encrypted : Bool
  nextKeyVersionNumber : Option Int
  versions : List (Option VersionValue)
  deriving DecidableEq, Repr

/-- The dictionary of parsed metadata: there are no null pointers in it. -/
def MetadataValue.dictionary (value : MetadataValue) : MetadataDictionary where
  name := value.name
  type := value.type
  purpose := value.purpose
  encrypted := value.encrypted
  nextKeyVersionNumber := value.nextKeyVersionNumber
  versions := value.versions.map some

namespace KeysetMetadata

/-- `GetValue`. -/
def getValue (m : KeysetMetadata) (publicExport : Bool) : Option MetadataDictionary :=
  let keyTypeName := m.keyType.getNameFromType
  let keyPurposeName := m.keyPurpose.getNameFromType
  if keyTypeName = "" then none
  else if keyPurposeName = "" then none
  else some
    { name := m.name
      type := keyTypeName
      purpose := keyPurposeName
      encrypted := m.encrypted
      nextKeyVersionNumber := if publicExport then none else some m.nextKeyVersionNumber
      versions := m.keyVersionsMap.entries.map fun entry => entry.2.getValue }

/-- The loop of `CreateFromValue` over pointers; `none` also when it follows a null pointer. -/
def createFromPointers (hasNext : Bool) :
    KeysetMetadata → Int → List (Option VersionValue) → Option (Option (KeysetMetadata × Int))
  | m, next, [] => some (some (m, next))
  | _, _, none :: _ => none
  | m, next, some value :: values =>
    match createVersion hasNext m next value with
    | none => none
    | some none => some none
    | some (some (m, next)) => createFromPointers hasNext m next values

/-- `CreateFromValue` of a dictionary. -/
def createFromDictionary (value : MetadataDictionary) : Option (Option KeysetMetadata) :=
  let keyType := KeyType.getTypeFromName value.type
  let keyPurpose := KeyPurpose.getTypeFromName value.purpose
  if keyType = .undefined ∨ keyPurpose = .undefined then some none
  else
    let next := value.nextKeyVersionNumber.getD 1
    if next ≤ 0 then none
    else
      let m := { name := value.name, keyType, keyPurpose, encrypted := value.encrypted, nextKeyVersionNumber := next }
      match createFromPointers value.nextKeyVersionNumber.isSome m next value.versions with
      | none => none
      | some none => some none
      | some (some (m, next)) =>
        if value.nextKeyVersionNumber.isSome then some (some m) else some (some { m with nextKeyVersionNumber := next })

/-- `CreateFromValue(GetValue(false))`; a null pointer is refused. -/
def reread (m : KeysetMetadata) : Option (Option KeysetMetadata) :=
  match m.getValue false with
  | none => some none
  | some value => createFromDictionary value

/-! ## Reading a dictionary -/

theorem createFromPointers_map_some (hasNext : Bool) (m : KeysetMetadata) (next : Int) (values : List VersionValue) :
    createFromPointers hasNext m next (values.map some) = createVersions hasNext m next values := by
  induction values generalizing m next with
  | nil => rfl
  | cons value values ih =>
    unfold createVersions
    rw [List.map_cons]
    unfold createFromPointers
    cases createVersion hasNext m next value with
    | none => rfl
    | some turn =>
      cases turn with
      | none => rfl
      | some state => exact ih state.1 state.2

/-- Of parsed metadata, the same metadata is made. -/
theorem createFromDictionary_dictionary (value : MetadataValue) : createFromDictionary value.dictionary = createFromValue value := by
  unfold createFromDictionary createFromValue MetadataValue.dictionary
  dsimp only
  by_cases hundefined : KeyType.getTypeFromName value.type = .undefined ∨ KeyPurpose.getTypeFromName value.purpose = .undefined
  · rw [if_pos hundefined, if_pos hundefined]
  · rw [if_neg hundefined, if_neg hundefined]
    by_cases hnext : value.nextKeyVersionNumber.getD 1 ≤ 0
    · rw [if_pos hnext, if_pos hnext]
    · rw [if_neg hnext, if_neg hnext]
      cases hloop : createVersions value.nextKeyVersionNumber.isSome _ (value.nextKeyVersionNumber.getD 1) value.versions with
      | none => simp only [createFromPointers_map_some, hloop]
      | some made => cases made <;> simp only [createFromPointers_map_some, hloop]

/-- A null pointer is followed, unless the loop ends in front of it. -/
theorem createFromPointers_of_null {hasNext : Bool} {m : KeysetMetadata} {next : Int} {values : List (Option VersionValue)}
    (hnull : none ∈ values) (result : KeysetMetadata × Int) : createFromPointers hasNext m next values ≠ some (some result) := by
  induction values generalizing m next with
  | nil => cases hnull
  | cons value values ih =>
    cases value with
    | none => exact nofun
    | some value =>
      have hrest : none ∈ values := (List.mem_cons.mp hnull).resolve_left nofun
      unfold createFromPointers
      cases createVersion hasNext m next value with
      | none => exact nofun
      | some turn =>
        cases turn with
        | none => exact nofun
        | some state => exact ih hrest

/-- How `AddVersion` ends: the version has a number or gets the next one, which is in use or not. -/
theorem addVersion_eq_some {m m' : KeysetMetadata} {v v' : KeyVersion} {added : Bool} (h : m.addVersion v = some (added, v', m')) :
    ∃ next, (v.versionNumber ≠ 0 ∧ v' = v ∧ next = m.nextKeyVersionNumber ∨
        v.versionNumber = 0 ∧ 0 < m.nextKeyVersionNumber ∧ v' = { v with versionNumber := m.nextKeyVersionNumber } ∧
          next = toInt (m.nextKeyVersionNumber + 1)) ∧
      (added = true ∧ m.getVersion v'.versionNumber = none ∧
          m' = { m with nextKeyVersionNumber := next, keyVersionsMap := m.keyVersionsMap.insert v'.versionNumber v' } ∨
        added = false ∧ (m.getVersion v'.versionNumber).isSome ∧ m' = { m with nextKeyVersionNumber := next }) := by
  unfold addVersion at h
  obtain ⟨⟨w, m₁⟩, hassign, heq⟩ := Option.map_eq_some_iff.mp h
  have hnumber : ∃ next, (v.versionNumber ≠ 0 ∧ w = v ∧ next = m.nextKeyVersionNumber ∨
      v.versionNumber = 0 ∧ 0 < m.nextKeyVersionNumber ∧ w = { v with versionNumber := m.nextKeyVersionNumber } ∧
        next = toInt (m.nextKeyVersionNumber + 1)) ∧ m₁ = { m with nextKeyVersionNumber := next } := by
    unfold assignNumber at hassign
    split at hassign
    · rename_i hzero
      split at hassign
      · cases hassign
      · rename_i hpos
        cases hassign
        exact ⟨_, Or.inr ⟨hzero, not_le.mp hpos, rfl, rfl⟩, rfl⟩
    · rename_i hne
      cases hassign
      exact ⟨_, Or.inl ⟨hne, rfl, rfl⟩, rfl⟩
  obtain ⟨next, hcases, rfl⟩ := hnumber
  refine ⟨next, ?_⟩
  dsimp only at heq
  split at heq
  · rename_i hfound
    cases heq
    exact ⟨hcases, Or.inr ⟨rfl, hfound, rfl⟩⟩
  · rename_i hfree
    cases heq
    exact ⟨hcases, Or.inl ⟨rfl, Option.not_isSome_iff_eq_none.mp hfree, rfl⟩⟩

/-- A turn of the loop that goes on: the version was added under a number of its own, or under the next one. -/
theorem createVersion_added {hasNext : Bool} {m m' : KeysetMetadata} {next next' : Int} {value : VersionValue}
    (h : createVersion hasNext m next value = some (some (m', next'))) :
    ∃ n counter, (0 < value.versionNumber ∧ n = value.versionNumber ∧ counter = m.nextKeyVersionNumber ∨
        value.versionNumber = 0 ∧ n = m.nextKeyVersionNumber ∧ 0 < n ∧ counter = toInt (m.nextKeyVersionNumber + 1)) ∧
      m.getVersion n = none ∧
      m' = { m with
        nextKeyVersionNumber := counter
        keyVersionsMap := m.keyVersionsMap.insert n { value.keyVersion with versionNumber := n } } ∧
      next' = if !hasNext ∧ next ≤ n then toInt (n + 1) else next := by
  unfold createVersion at h
  split at h
  · cases h
  · split at h
    · cases h
    · rename_i hnonneg
      split at h
      · cases h
      · cases h
      · rename_i v m₁ hadd
        obtain ⟨counter, hnumber, ⟨-, hfree, rfl⟩ | ⟨hfalse, -⟩⟩ := addVersion_eq_some hadd
        · have hnext : next' = if !hasNext ∧ next ≤ v.versionNumber then toInt (v.versionNumber + 1) else next := by
            split at h
            · rename_i hcond
              rw [if_pos hcond]
              cases h
              rfl
            · rename_i hcond
              rw [if_neg hcond]
              cases h
              rfl
          have hm : m' = { m with
              nextKeyVersionNumber := counter
              keyVersionsMap := m.keyVersionsMap.insert v.versionNumber v } := by
            split at h <;> cases h <;> rfl
          refine ⟨v.versionNumber, counter, ?_, hfree, ?_, hnext⟩
          · rcases hnumber with ⟨hne, rfl, rfl⟩ | ⟨hzero, hpos, rfl, rfl⟩
            · exact Or.inl ⟨lt_of_le_of_ne (not_lt.mp hnonneg) (Ne.symm hne), rfl, rfl⟩
            · exact Or.inr ⟨hzero, rfl, hpos, rfl⟩
          · rw [hm]
            rcases hnumber with ⟨-, rfl, -⟩ | ⟨-, -, rfl, -⟩ <;> rfl
        · cases hfalse

/-! ## What can be reached -/

/-- Metadata that the constructor or `CreateFromValue` makes, and what `AddVersion` and `RemoveVersion` make of it. A version has no
negative number when it is constructed. -/
inductive Reachable : KeysetMetadata → Prop where
  | new (name : String) (keyType : KeyType) (keyPurpose : KeyPurpose) (encrypted : Bool) {next : Int} (hnext : 0 < next) :
    Reachable { name, keyType, keyPurpose, encrypted, nextKeyVersionNumber := next }
  | created {value : MetadataValue} {m : KeysetMetadata} : createFromValue value = some (some m) → Reachable m
  | addVersion {m m' : KeysetMetadata} {v v' : KeyVersion} {added : Bool} : Reachable m → 0 ≤ v.versionNumber →
    m.addVersion v = some (added, v', m') → Reachable m'
  | removeVersion {m : KeysetMetadata} (n : Int) : Reachable m → Reachable (m.removeVersion n).2

/-- Every version is under its own number, which is positive. -/
def Numbered (m : KeysetMetadata) : Prop := ∀ n v, m.getVersion n = some v → v.versionNumber = n ∧ 0 < n

theorem getVersion_insert (m : KeysetMetadata) (next n n' : Int) (v : KeyVersion) :
    ({ m with nextKeyVersionNumber := next, keyVersionsMap := m.keyVersionsMap.insert n v } : KeysetMetadata).getVersion n' =
      if n' = n then some v else m.getVersion n' := m.keyVersionsMap.find_insert n n' v

theorem Numbered.insert {m : KeysetMetadata} (h : Numbered m) {n : Int} (hpos : 0 < n) {v : KeyVersion} (hv : v.versionNumber = n)
    (next : Int) :
    Numbered { m with nextKeyVersionNumber := next, keyVersionsMap := m.keyVersionsMap.insert n v } := by
  intro n' v' hv'
  rw [getVersion_insert] at hv'
  split at hv'
  · rename_i hn
    cases hv'
    rw [hn]
    exact ⟨hv, hpos⟩
  · exact h n' v' hv'

theorem Numbered.createVersions {hasNext : Bool} {m m' : KeysetMetadata} {next next' : Int} {values : List VersionValue}
    (hm : Numbered m) (h : createVersions hasNext m next values = some (some (m', next'))) : Numbered m' := by
  induction values generalizing m next with
  | nil =>
    cases h
    exact hm
  | cons value values ih =>
    obtain ⟨m₁, next₁, hturn, h⟩ := createVersions_cons h
    obtain ⟨n, counter, hnumber, -, rfl, -⟩ := createVersion_added hturn
    have hpos : 0 < n := by
      rcases hnumber with ⟨hpos, rfl, -⟩ | ⟨-, -, hpos, -⟩
      · exact hpos
      · exact hpos
    exact ih (hm.insert hpos rfl counter) h

/-- The metadata that is made of a value is the result of the loop, but for the next number. -/
theorem createFromValue_eq_some {value : MetadataValue} {m : KeysetMetadata} (h : createFromValue value = some (some m)) :
    ∃ m₁ next, 0 < value.nextKeyVersionNumber.getD 1 ∧
      createVersions value.nextKeyVersionNumber.isSome
        { name := value.name
          keyType := .getTypeFromName value.type
          keyPurpose := .getTypeFromName value.purpose
          encrypted := value.encrypted
          nextKeyVersionNumber := value.nextKeyVersionNumber.getD 1 }
        (value.nextKeyVersionNumber.getD 1) value.versions = some (some (m₁, next)) ∧
      m = if value.nextKeyVersionNumber.isSome then m₁ else { m₁ with nextKeyVersionNumber := next } := by
  unfold createFromValue at h
  dsimp only at h
  split at h
  · cases h
  · split at h
    · cases h
    · rename_i hpos
      split at h
      · cases h
      · cases h
      · rename_i m₁ next hloop
        refine ⟨m₁, next, not_le.mp hpos, hloop, ?_⟩
        split at h
        · rename_i hsome
          rw [if_pos hsome]
          cases h
          rfl
        · rename_i hnone
          rw [if_neg hnone]
          cases h
          rfl

theorem Reachable.numbered {m : KeysetMetadata} (h : Reachable m) : Numbered m := by
  induction h with
  | new => exact nofun
  | created hcreate =>
    obtain ⟨m₁, next, -, hloop, rfl⟩ := createFromValue_eq_some hcreate
    have hm₁ : Numbered m₁ := by
      refine Numbered.createVersions ?_ hloop
      intro n v hv
      cases hv
    split
    · exact hm₁
    · exact hm₁
  | addVersion _ hnonneg hadd ih =>
    obtain ⟨next, hnumber, ⟨-, -, rfl⟩ | ⟨-, -, rfl⟩⟩ := addVersion_eq_some hadd
    · refine ih.insert ?_ rfl next
      rcases hnumber with ⟨hne, rfl, -⟩ | ⟨-, hpos, rfl, -⟩
      · exact lt_of_le_of_ne hnonneg (Ne.symm hne)
      · exact hpos
    · exact ih
  | removeVersion n _ ih =>
    intro n' v hv
    rw [getVersion_removeVersion] at hv
    split at hv
    · cases hv
    · exact ih n' v hv

/-! ## The round trip -/

/-- Two metadata that cannot be told apart. -/
structure Same (m m' : KeysetMetadata) : Prop where
  name_eq : m'.name = m.name
  keyType_eq : m'.keyType = m.keyType
  keyPurpose_eq : m'.keyPurpose = m.keyPurpose
  encrypted_eq : m'.encrypted = m.encrypted
  nextKeyVersionNumber_eq : m'.nextKeyVersionNumber = m.nextKeyVersionNumber
  getVersion_eq : ∀ n, m'.getVersion n = m.getVersion n

/-- What is written is read as the same metadata. -/
def RoundTrips (m : KeysetMetadata) : Prop := ∃ m', m.reread = some (some m') ∧ Same m m'

/-- The type, the purpose and the statuses have names, and the counter is a number that a version can have. -/
structure Writable (m : KeysetMetadata) : Prop where
  keyType : m.keyType ≠ .undefined
  keyPurpose : m.keyPurpose ≠ .undefined
  next_pos : 0 < m.nextKeyVersionNumber
  keyStatus : ∀ {n v}, m.getVersion n = some v → v.keyStatus ≠ .undefined

/-- A turn for a version with a new number. -/
theorem createVersion_new {hasNext : Bool} {m : KeysetMetadata} {next : Int} {value : VersionValue} (hpos : 0 < value.versionNumber)
    (hstatus : KeyStatus.getTypeFromName value.status ≠ .undefined) (hfree : m.getVersion value.versionNumber = none) :
    ∃ next', createVersion hasNext m next value =
      some (some ({ m with keyVersionsMap := m.keyVersionsMap.insert value.versionNumber value.keyVersion }, next')) := by
  have hassign : m.assignNumber value.keyVersion = some (value.keyVersion, m) := if_neg (Int.ne_of_gt hpos)
  have hadd : m.addVersion value.keyVersion = some (true, value.keyVersion,
      { m with keyVersionsMap := m.keyVersionsMap.insert value.versionNumber value.keyVersion }) := by
    unfold getVersion at hfree
    unfold addVersion
    rw [hassign, Option.map_some]
    dsimp only
    rw [show m.keyVersionsMap.find value.keyVersion.versionNumber = none from hfree, if_neg (by decide)]
    rfl
  unfold createVersion
  rw [if_neg hstatus, if_neg (not_lt.mpr (Int.le_of_lt hpos)),
    show m.addVersion ⟨value.versionNumber, .getTypeFromName value.status, value.exportable⟩ = _ from hadd]
  dsimp only
  split
  · exact ⟨_, rfl⟩
  · exact ⟨_, rfl⟩

/-- The loop takes all versions that have distinct positive numbers and a status. -/
theorem createVersions_new {hasNext : Bool} {m : KeysetMetadata} {next : Int} {values : List VersionValue}
    (hpos : ∀ value ∈ values, 0 < value.versionNumber)
    (hstatus : ∀ value ∈ values, KeyStatus.getTypeFromName value.status ≠ .undefined)
    (hfree : ∀ value ∈ values, m.getVersion value.versionNumber = none)
    (hdistinct : (values.map VersionValue.versionNumber).Nodup) :
    ∃ map next', createVersions hasNext m next values = some (some ({ m with keyVersionsMap := map }, next')) := by
  induction values generalizing m next with
  | nil => exact ⟨m.keyVersionsMap, next, rfl⟩
  | cons value values ih =>
    obtain ⟨next₁, hturn⟩ := @createVersion_new hasNext m next value (hpos value List.mem_cons_self)
      (hstatus value List.mem_cons_self) (hfree value List.mem_cons_self)
    rw [List.map_cons, List.nodup_cons] at hdistinct
    unfold createVersions
    rw [hturn]
    refine ih (fun w hw => hpos w (List.mem_cons_of_mem _ hw)) (fun w hw => hstatus w (List.mem_cons_of_mem _ hw)) ?_ hdistinct.2
    intro w hw
    refine (m.keyVersionsMap.find_insert value.versionNumber w.versionNumber value.keyVersion).trans ?_
    rw [if_neg]
    · exact hfree w (List.mem_cons_of_mem _ hw)
    · intro heq
      exact hdistinct.1 (heq ▸ List.mem_map_of_mem hw)

/-- Metadata in the form of its text. -/
def toValue (m : KeysetMetadata) (publicExport : Bool) : MetadataValue where
  name := m.name
  type := m.keyType.getNameFromType
  purpose := m.keyPurpose.getNameFromType
  encrypted := m.encrypted
  nextKeyVersionNumber := if publicExport then none else some m.nextKeyVersionNumber
  versions := m.keyVersionsMap.entries.map fun entry => entry.2.value

theorem getValue_of_types {m : KeysetMetadata} (htype : m.keyType ≠ .undefined) (hpurpose : m.keyPurpose ≠ .undefined)
    (publicExport : Bool) : m.getValue publicExport = some
      { (m.toValue publicExport).dictionary with versions := m.keyVersionsMap.entries.map fun entry => entry.2.getValue } := by
  have htypeName : m.keyType.getNameFromType ≠ "" := by
    cases h : m.keyType <;> first | exact absurd h htype | exact of_decide_eq_true rfl
  have hpurposeName : m.keyPurpose.getNameFromType ≠ "" := by
    cases h : m.keyPurpose <;> first | exact absurd h hpurpose | exact of_decide_eq_true rfl
  unfold getValue
  dsimp only
  rw [if_neg htypeName, if_neg hpurposeName]
  rfl

/-- When every status has a name, there is no null pointer. -/
theorem Writable.getValue {m : KeysetMetadata} (h : Writable m) (publicExport : Bool) :
    m.getValue publicExport = some (m.toValue publicExport).dictionary := by
  rw [getValue_of_types h.keyType h.keyPurpose]
  have hvalues : (m.keyVersionsMap.entries.map fun entry => entry.2.getValue) = (m.toValue publicExport).versions.map some := by
    unfold toValue
    rw [List.map_map]
    refine List.map_congr_left fun entry hmem => ?_
    have hstatus : entry.2.keyStatus ≠ .undefined := h.keyStatus (m.keyVersionsMap.mem_entries_iff.mp hmem)
    rw [KeyVersion.getValue_eq, if_neg hstatus]
    rfl
  rw [hvalues]
  rfl

theorem RoundTrips.writable {m : KeysetMetadata} (h : RoundTrips m) : Writable m := by
  obtain ⟨m', hread, -⟩ := h
  have htype : m.keyType ≠ .undefined := by
    intro htype
    unfold reread KeysetMetadata.getValue at hread
    rw [htype] at hread
    cases hread
  have hpurpose : m.keyPurpose ≠ .undefined := by
    intro hpurpose
    unfold reread KeysetMetadata.getValue at hread
    rw [hpurpose] at hread
    dsimp only at hread
    split at hread
    · cases hread
    · rename_i value hvalue
      split at hvalue
      · cases hvalue
      · cases hvalue
  unfold reread at hread
  rw [getValue_of_types htype hpurpose] at hread
  dsimp only at hread
  unfold createFromDictionary toValue MetadataValue.dictionary at hread
  dsimp only at hread
  have hnext : (if false = true then none else some m.nextKeyVersionNumber) = some m.nextKeyVersionNumber := rfl
  rw [KeyType.getTypeFromName_getNameFromType, KeyPurpose.getTypeFromName_getNameFromType,
    if_neg (not_or.mpr ⟨htype, hpurpose⟩), hnext, Option.getD_some] at hread
  split at hread
  · cases hread
  · rename_i hpos
    refine ⟨htype, hpurpose, not_le.mp hpos, ?_⟩
    intro n v hv hundefined
    split at hread
    · cases hread
    · cases hread
    · rename_i hloop
      refine createFromPointers_of_null ?_ _ hloop
      rw [List.mem_map]
      refine ⟨(n, v), m.keyVersionsMap.mem_entries_iff.mpr hv, ?_⟩
      rw [KeyVersion.getValue_eq, if_pos hundefined]

/-- Metadata that can be written, with its versions under their positive numbers, is read again. -/
theorem Writable.roundTrips {m : KeysetMetadata} (h : Writable m) (hm : Numbered m) : RoundTrips m := by
  have hmem : ∀ {n v}, (n, v) ∈ m.keyVersionsMap.entries ↔ m.getVersion n = some v := m.keyVersionsMap.mem_entries_iff
  have hnumbers : (m.toValue false).versions.map VersionValue.versionNumber = m.keyVersionsMap.entries.map Prod.fst := by
    unfold toValue
    rw [List.map_map]
    exact List.map_congr_left fun entry hentry => (hm _ _ (hmem.mp hentry)).1
  have hdistinct : ((m.toValue false).versions.map VersionValue.versionNumber).Nodup := by
    rw [hnumbers]
    exact List.Pairwise.map Prod.fst (fun _ _ hlt => ne_of_lt hlt) m.keyVersionsMap.sorted
  have hpos : ∀ value ∈ (m.toValue false).versions, 0 < value.versionNumber := by
    intro value hvalue
    obtain ⟨entry, hentry, rfl⟩ := List.mem_map.mp hvalue
    have hnumber := hm _ _ (hmem.mp hentry)
    show 0 < entry.2.versionNumber
    rw [hnumber.1]
    exact hnumber.2
  have hstatus : ∀ value ∈ (m.toValue false).versions, KeyStatus.getTypeFromName value.status ≠ .undefined := by
    intro value hvalue
    obtain ⟨entry, hentry, rfl⟩ := List.mem_map.mp hvalue
    have hread : KeyStatus.getTypeFromName entry.2.value.status = entry.2.keyStatus :=
      congrArg KeyVersion.keyStatus entry.2.keyVersion_value
    rw [hread]
    exact h.keyStatus (hmem.mp hentry)
  obtain ⟨map, next, hloop⟩ := @createVersions_new true
    { name := m.name
      keyType := m.keyType
      keyPurpose := m.keyPurpose
      encrypted := m.encrypted
      nextKeyVersionNumber := m.nextKeyVersionNumber } m.nextKeyVersionNumber _ hpos hstatus (fun _ _ => rfl) hdistinct
  have hcreate : createFromValue (m.toValue false) = some (some { m with keyVersionsMap := map }) := by
    unfold createFromValue
    have hvalue : (m.toValue false).nextKeyVersionNumber = some m.nextKeyVersionNumber := rfl
    have htype : KeyType.getTypeFromName (m.toValue false).type = m.keyType := m.keyType.getTypeFromName_getNameFromType
    have hpurpose : KeyPurpose.getTypeFromName (m.toValue false).purpose = m.keyPurpose :=
      m.keyPurpose.getTypeFromName_getNameFromType
    dsimp only
    rw [hvalue, htype, hpurpose, if_neg (not_or.mpr ⟨h.keyType, h.keyPurpose⟩), Option.getD_some, if_neg (not_le.mpr h.next_pos)]
    simp only [Option.isSome_some, if_true]
    rw [show createVersions true
      { name := (m.toValue false).name
        keyType := m.keyType
        keyPurpose := m.keyPurpose
        encrypted := (m.toValue false).encrypted
        nextKeyVersionNumber := m.nextKeyVersionNumber } m.nextKeyVersionNumber (m.toValue false).versions = _ from hloop]
  have hempty : ∀ n v, ({ m with keyVersionsMap := .empty } : KeysetMetadata).getVersion n = some v ↔
      ∃ value ∈ ([] : List VersionValue), value.versionNumber = n ∧ value.keyVersion = v := by
    intro n v
    exact iff_of_false nofun fun ⟨w, hw, _⟩ => nomatch hw
  refine ⟨{ m with keyVersionsMap := map }, ?_, rfl, rfl, rfl, rfl, rfl, ?_⟩
  · unfold reread
    rw [h.getValue false]
    dsimp only
    rw [createFromDictionary_dictionary]
    exact hcreate
  · intro n
    refine Option.ext fun v => ?_
    have hversions := getVersion_createVersions hempty hpos hdistinct hloop n v
    rw [List.nil_append] at hversions
    refine hversions.trans ?_
    constructor
    · rintro ⟨value, hvalue, rfl, rfl⟩
      obtain ⟨entry, hentry, rfl⟩ := List.mem_map.mp hvalue
      rw [entry.2.keyVersion_value]
      show m.getVersion entry.2.versionNumber = some entry.2
      rw [(hm _ _ (hmem.mp hentry)).1]
      exact hmem.mp hentry
    · intro hv
      exact ⟨v.value, List.mem_map.mpr ⟨(n, v), hmem.mpr hv, rfl⟩, (hm n v hv).1, v.keyVersion_value⟩

/-! ## The counter that is recovered -/

/-- The counter is above every version, and gives its number to a version that has none. -/
structure Recovered (m : KeysetMetadata) : Prop where
  above : ∀ n v, m.getVersion n = some v → n < m.nextKeyVersionNumber
  adds : ∀ status exportable, ∃ m', m.addVersion ⟨0, status, exportable⟩ =
    some (true, ⟨m.nextKeyVersionNumber, status, exportable⟩, m')

/-- No version of the list has the greatest `int` as its number, or is given it. -/
structure NumbersFit (values : List VersionValue) : Prop where
  numbered : ∀ value ∈ values, value.versionNumber + 1 < 2 ^ 31
  unnumbered : (values.countP fun value => value.versionNumber = 0) + 1 < 2 ^ 31

theorem Recovered.of_above {m : KeysetMetadata} (hpos : 0 < m.nextKeyVersionNumber)
    (habove : ∀ n v, m.getVersion n = some v → n < m.nextKeyVersionNumber) : Recovered m := by
  refine ⟨habove, ?_⟩
  intro status exportable
  have hfree : m.keyVersionsMap.find m.nextKeyVersionNumber = none := by
    cases hv : m.getVersion m.nextKeyVersionNumber with
    | none => exact hv
    | some v => exact absurd (habove _ v hv) (Int.lt_irrefl _)
  unfold addVersion assignNumber
  rw [if_pos (Eq.refl (0 : Int)), if_neg (not_le.mpr hpos), Option.map_some]
  dsimp only
  rw [hfree, if_neg (by decide)]
  exact ⟨_, rfl⟩

/-- While the numbers fit, the recovered number stays above the versions. -/
theorem above_of_createVersions {m m' : KeysetMetadata} {next next' : Int} {values : List VersionValue}
    (hcounter : 0 < m.nextKeyVersionNumber) (hnext : 0 < next) (habove : ∀ n v, m.getVersion n = some v → n < next)
    (hnumbered : ∀ value ∈ values, value.versionNumber + 1 < 2 ^ 31)
    (hunnumbered : m.nextKeyVersionNumber + (values.countP fun value => value.versionNumber = 0 : Nat) < 2 ^ 31)
    (h : createVersions false m next values = some (some (m', next'))) :
    0 < next' ∧ ∀ n v, m'.getVersion n = some v → n < next' := by
  induction values generalizing m next with
  | nil =>
    cases h
    exact ⟨hnext, habove⟩
  | cons value values ih =>
    obtain ⟨m₁, next₁, hturn, h⟩ := createVersions_cons h
    obtain ⟨n, counter, hnumber, -, rfl, hnext₁⟩ := createVersion_added hturn
    rw [List.countP_cons] at hunnumbered
    have hvalue := hnumbered value List.mem_cons_self
    have hn : 0 < n ∧ n + 1 < 2 ^ 31 ∧ 0 < counter ∧
        counter + (values.countP fun value => value.versionNumber = 0 : Nat) < 2 ^ 31 := by
      rcases hnumber with ⟨hpos, rfl, rfl⟩ | ⟨hzero, rfl, hpos, hcount⟩
      · rw [if_neg (by simp; omega)] at hunnumbered
        exact ⟨hpos, hvalue, hcounter, by simpa using hunnumbered⟩
      · rw [if_pos (by simp [hzero])] at hunnumbered
        push_cast at hunnumbered
        rw [toInt_add_one hpos (by omega)] at hcount
        omega
    rw [toInt_add_one hn.1 hn.2.1] at hnext₁
    have hle : 0 < next₁ ∧ next ≤ next₁ ∧ n < next₁ := by
      rw [hnext₁]
      by_cases hle : next ≤ n
      · rw [if_pos ⟨rfl, hle⟩]
        omega
      · rw [if_neg fun hc => hle hc.2]
        omega
    refine ih hn.2.2.1 hle.1 ?_ (fun w hw => hnumbered w (List.mem_cons_of_mem _ hw)) hn.2.2.2 h
    intro n' v hv
    rw [getVersion_insert] at hv
    split at hv
    · rename_i heq
      rw [heq]
      exact hle.2.2
    · exact Int.lt_of_lt_of_le (habove n' v hv) hle.2.1

/-- A version that is there stays there. -/
theorem isSome_getVersion_createVersions {hasNext : Bool} {m m' : KeysetMetadata} {next next' : Int} {values : List VersionValue} {n : Int}
    (hthere : (m.getVersion n).isSome) (h : createVersions hasNext m next values = some (some (m', next'))) :
    (m'.getVersion n).isSome := by
  induction values generalizing m next with
  | nil =>
    cases h
    exact hthere
  | cons value values ih =>
    obtain ⟨_, _, hturn, h⟩ := createVersions_cons h
    obtain ⟨k, counter, -, -, rfl, -⟩ := createVersion_added hturn
    refine ih ?_ h
    rw [getVersion_insert]
    split
    · rfl
    · exact hthere

/-- Every version with a number is there after the loop. -/
theorem getVersion_of_numbered {hasNext : Bool} {m m' : KeysetMetadata} {next next' : Int} {values : List VersionValue}
    (h : createVersions hasNext m next values = some (some (m', next'))) {value : VersionValue} (hvalue : value ∈ values)
    (hpos : 0 < value.versionNumber) : (m'.getVersion value.versionNumber).isSome := by
  induction values generalizing m next with
  | nil => cases hvalue
  | cons first values ih =>
    obtain ⟨_, _, hturn, h⟩ := createVersions_cons h
    obtain ⟨k, counter, hnumber, -, rfl, -⟩ := createVersion_added hturn
    rcases List.mem_cons.mp hvalue with rfl | hrest
    · refine isSome_getVersion_createVersions ?_ h
      rcases hnumber with ⟨-, rfl, -⟩ | ⟨hzero, -⟩
      · rw [getVersion_insert, if_pos rfl]
        rfl
      · omega
    · exact ih h hrest

/-- With too many versions without a number, one of them is given the greatest. -/
theorem getVersion_of_unnumbered {hasNext : Bool} {m m' : KeysetMetadata} {next next' : Int} {values : List VersionValue}
    (h : createVersions hasNext m next values = some (some (m', next'))) (hcounter : 0 < m.nextKeyVersionNumber)
    (hlt : m.nextKeyVersionNumber < 2 ^ 31)
    (hmany : 2 ^ 31 ≤ m.nextKeyVersionNumber + (values.countP fun value => value.versionNumber = 0 : Nat)) :
    (m'.getVersion (2 ^ 31 - 1)).isSome := by
  induction values generalizing m next with
  | nil =>
    rw [List.countP_nil] at hmany
    omega
  | cons value values ih =>
    obtain ⟨_, _, hturn, h⟩ := createVersions_cons h
    obtain ⟨k, counter, hnumber, -, rfl, -⟩ := createVersion_added hturn
    rw [List.countP_cons] at hmany
    rcases hnumber with ⟨hpos, -, rfl⟩ | ⟨hzero, rfl, hpos, hcount⟩
    · rw [if_neg (by simp; omega)] at hmany
      exact ih h hcounter hlt (by simpa using hmany)
    · rw [if_pos (by simp [hzero])] at hmany
      by_cases hlast : m.nextKeyVersionNumber = 2 ^ 31 - 1
      · refine isSome_getVersion_createVersions ?_ h
        rw [getVersion_insert, if_pos hlast.symm]
        rfl
      · rw [toInt_add_one hpos (by omega)] at hcount
        subst hcount
        refine ih h ?_ ?_ ?_
        · show 0 < m.nextKeyVersionNumber + 1
          omega
        · show m.nextKeyVersionNumber + 1 < 2 ^ 31
          omega
        · show 2 ^ 31 ≤ m.nextKeyVersionNumber + 1 + _
          push_cast at hmany
          omega

/-- The number that the loop computes is an `int`. -/
theorem next_lt_of_createVersions {hasNext : Bool} {m m' : KeysetMetadata} {next next' : Int} {values : List VersionValue}
    (hnext : next < 2 ^ 31) (h : createVersions hasNext m next values = some (some (m', next'))) : next' < 2 ^ 31 := by
  induction values generalizing m next with
  | nil =>
    cases h
    exact hnext
  | cons value values ih =>
    obtain ⟨_, _, hturn, h⟩ := createVersions_cons h
    obtain ⟨k, counter, -, -, -, hnext₁⟩ := createVersion_added hturn
    refine ih ?_ h
    rw [hnext₁]
    split
    · exact toInt_lt _
    · exact hnext

/-- The counter is recovered exactly when the numbers fit. -/
theorem recovered_iff {value : MetadataValue} (hnone : value.nextKeyVersionNumber = none) {m : KeysetMetadata}
    (h : createFromValue value = some (some m)) : Recovered m ↔ NumbersFit value.versions := by
  obtain ⟨m₁, next, -, hloop, hm⟩ := createFromValue_eq_some h
  rw [hnone] at hloop hm
  simp only [Option.isSome_none, Bool.false_eq_true, if_false, Option.getD_none] at hloop hm
  subst hm
  constructor
  · rintro ⟨habove, -⟩
    have hlt : next < 2 ^ 31 := next_lt_of_createVersions (by decide) hloop
    refine ⟨?_, ?_⟩
    · intro v hv
      by_cases hpos : 0 < v.versionNumber
      · obtain ⟨w, hw⟩ := Option.isSome_iff_exists.mp (getVersion_of_numbered hloop hv hpos)
        have hbelow : v.versionNumber < next := habove _ w hw
        omega
      · omega
    · by_contra hmany
      have hthere := getVersion_of_unnumbered hloop Int.one_pos (show (1 : Int) < 2 ^ 31 by decide) (by push_cast; omega)
      obtain ⟨w, hw⟩ := Option.isSome_iff_exists.mp hthere
      have hbelow : 2 ^ 31 - 1 < next := habove _ w hw
      omega
  · rintro ⟨hnumbered, hunnumbered⟩
    obtain ⟨hpos, habove⟩ := above_of_createVersions Int.one_pos Int.one_pos (by intro n v hv; cases hv) hnumbered
      (by push_cast; omega) hloop
    exact Recovered.of_above hpos habove

/-- Metadata is read as it was written exactly when its type, purpose and statuses have names and its counter is positive; and the
counter of a dictionary without a next version number is recovered exactly when no version has the greatest number, or is given it. -/
theorem roundTrips_and_recovered_iff {m : KeysetMetadata} (hm : Reachable m) :
    (RoundTrips m ↔ Writable m) ∧
    ∀ {value : MetadataValue} {m' : KeysetMetadata}, value.nextKeyVersionNumber = none → createFromValue value = some (some m') →
      (Recovered m' ↔ NumbersFit value.versions) :=
  ⟨⟨RoundTrips.writable, fun h => h.roundTrips hm.numbered⟩, fun hnone hcreate => recovered_iff hnone hcreate⟩

/-- Metadata of one version, without a next version number. -/
def oneVersion (n : Int) : MetadataValue := ⟨"one", "AES", "DECRYPT_AND_ENCRYPT", false, none, [⟨n, "PRIMARY", false⟩]⟩

/-- Behind the greatest number the counter is below zero, and a version without a number aborts the program. -/
theorem greatest_number_is_not_recovered : ∃ m, createFromValue (oneVersion 2147483647) = some (some m) ∧
    m.getVersion 2147483647 = some ⟨2147483647, .primary, false⟩ ∧ m.nextKeyVersionNumber = -2147483648 ∧
    m.addVersion ⟨0, .active, false⟩ = none ∧ ¬ Recovered m := by
  refine ⟨_, rfl, rfl, by decide, rfl, ?_⟩
  intro h
  exact absurd (h.above 2147483647 _ rfl) (by decide)

theorem roundTrips_and_recovered_iff_one : ∃ m, createFromValue (oneVersion 1) = some (some m) ∧ RoundTrips m ∧ Recovered m := by
  have hcreate : ∃ m, createFromValue (oneVersion 1) = some (some m) ∧ Writable m := by
    refine ⟨_, rfl, by decide, by decide, by decide, ?_⟩
    intro n v hv
    have hget := (OrderedMap.empty.find_insert 1 n (⟨1, .primary, false⟩ : KeyVersion)).symm.trans hv
    split at hget
    · cases hget
      decide
    · cases hget
  obtain ⟨m, hm, hwritable⟩ := hcreate
  have hiff := roundTrips_and_recovered_iff (.created hm)
  exact ⟨m, hm, hiff.1.mpr hwritable, (hiff.2 rfl hm).mpr ⟨by simp [oneVersion], by simp [oneVersion]⟩⟩

end KeysetMetadata

end Cpp
