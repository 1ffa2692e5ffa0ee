import Keyczar.Cpp.JSONAccepted
import Keyczar.Cpp.MetadataValues

/-!
# The text of metadata

`GetValue` and `CreateFromValue` with the dictionaries that are written and read. A string of the library is its bytes; as a `String` it
has one character for each of them.
-/

namespace Cpp

open Entries (getInteger getString getBoolean getList hasKey)
open scoped Entries Characters

/-- The characters of a string that are its bytes. -/
def stdString (s : Bytes) : String := String.ofList (s.map fun c => Char.ofNat c.toNat)

/-- Every character is a byte. -/
def IsStd (s : String) : Prop := ∀ c ∈ s.toList, c.toNat < 256

theorem stdString_asciiString {s : String} (h : IsStd s) : stdString (asciiString s) = s := by
  unfold stdString asciiString
  rw [List.map_map]
  have hid : s.toList.map ((fun c => Char.ofNat c.toNat) ∘ ascii) = s.toList := by
    refine (List.map_congr_left fun c hc => ?_).trans (List.map_id s.toList)
    show Char.ofNat (UInt8.ofNat c.toNat).toNat = c
    rw [UInt8.toNat_ofNat', Nat.mod_eq_of_lt (h c hc), Char.ofNat_toNat]
  rw [hid, String.ofList_toList]

/-- A function that returns a null pointer where there is nothing, and goes on where there is something. -/
def orNull {α β : Type} (x : Option α) (f : α → Option (Option β)) : Option (Option β) :=
  match x with
  | none => some none
  | some a => f a

/-! ## `CreateFromValue` -/

/-- `KeyVersion::CreateFromValue`; the outer `none` is a `CHECK` that fails. -/
def KeyVersion.ofValue : Value → Option (Option KeyVersion)
  | .dictionary version =>
    orNull (getInteger version (asciiString "versionNumber")) fun versionNumber =>
    orNull (getString version (asciiString "status")) fun keyStatusString =>
    let keyStatus := KeyStatus.getTypeFromName (stdString keyStatusString)
    if keyStatus = .undefined then some none
    else
      orNull (getBoolean version (asciiString "exportable")) fun exportable =>
      -- the constructor checks the number
      if versionNumber < 0 then none else some (some ⟨versionNumber, keyStatus, exportable⟩)
  | _ => some none

namespace KeysetMetadata

/-- One turn of the loop over the versions. -/
def addValue (hasNext : Bool) (m : KeysetMetadata) (next : Int) (version : Value) : Option (Option (KeysetMetadata × Int)) :=
  match KeyVersion.ofValue version with
  | none => none
  | some none => some none
  | some (some keyVersion) =>
    match m.addVersion keyVersion with
    | none => none
    | some (false, _, _) => some none
    | some (true, keyVersion, m) =>
      if !hasNext ∧ next ≤ keyVersion.versionNumber then some (some (m, toInt (keyVersion.versionNumber + 1)))
      else some (some (m, next))

/-- The loop. -/
def addValues (hasNext : Bool) : KeysetMetadata → Int → List Value → Option (Option (KeysetMetadata × Int))
  | m, next, [] => some (some (m, next))
  | m, next, version :: versions =>
    match addValue hasNext m next version with
    | none => none
    | some none => some none
    | some (some (m, next)) => addValues hasNext m next versions

/-- `CreateFromValue`. -/
def ofValue : Value → Option (Option KeysetMetadata)
  | .dictionary metadata =>
    orNull (getString metadata (asciiString "name")) fun name =>
    orNull (getString metadata (asciiString "type")) fun keyTypeString =>
    let keyType := KeyType.getTypeFromName (stdString keyTypeString)
    if keyType = .undefined then some none
    else
      orNull (getString metadata (asciiString "purpose")) fun keyPurposeString =>
      let keyPurpose := KeyPurpose.getTypeFromName (stdString keyPurposeString)
      if keyPurpose = .undefined then some none
      else
        orNull (getBoolean metadata (asciiString "encrypted")) fun encrypted =>
        let hasNext := hasKey metadata (asciiString "nextKeyVersionNumber")
        orNull (if hasNext then getInteger metadata (asciiString "nextKeyVersionNumber") else some 1) fun next =>
        -- the constructor checks the next number
        if next ≤ 0 then none
        else
          let m := { name := stdString name, keyType, keyPurpose, encrypted, nextKeyVersionNumber := next }
          orNull (getList metadata (asciiString "versions")) fun keyVersions =>
          match addValues hasNext m next keyVersions with
          | none => none
          | some none => some none
          | some (some (m, next)) => if hasNext then some (some m) else some (some { m with nextKeyVersionNumber := next })
  | _ => some none

end KeysetMetadata

/-! ## `GetValue` -/

/-- The dictionary of a version. -/
def KeyVersion.dictionary (versionNumber : Int) (keyStatusName : String) (exportable : Bool) : Value :=
  let version : Entries := []
  let version := version.set (asciiString "versionNumber") (.integer versionNumber)
  let version := version.set (asciiString "status") (.string (asciiString keyStatusName))
  .dictionary (version.set (asciiString "exportable") (.boolean exportable))

/-- `KeyVersion::GetValue`. -/
def KeyVersion.toJson (v : KeyVersion) : Option Value :=
  let keyStatusName := v.keyStatus.getNameFromType
  if keyStatusName = "" then none else some (dictionary v.versionNumber keyStatusName v.exportable)

namespace KeysetMetadata

/-- The dictionary of metadata. -/
def dictionary (name keyTypeName keyPurposeName : String) (encrypted : Bool) (next : Option Int) (versions : List Value) : Entries :=
  let metadata : Entries := []
  let metadata := metadata.set (asciiString "name") (.string (asciiString name))
  let metadata := metadata.set (asciiString "type") (.string (asciiString keyTypeName))
  let metadata := metadata.set (asciiString "purpose") (.string (asciiString keyPurposeName))
  let metadata := metadata.set (asciiString "encrypted") (.boolean encrypted)
  let metadata :=
    match next with
    | none => metadata
    | some next => metadata.set (asciiString "nextKeyVersionNumber") (.integer next)
  metadata.set (asciiString "versions") (.list versions)

/-- `GetValue`. A version without a value is a null pointer in the list, which is followed when the value is written: the outer `none`. -/
def toJson (m : KeysetMetadata) (publicExport : Bool) : Option (Option Value) :=
  let keyTypeName := m.keyType.getNameFromType
  let keyPurposeName := m.keyPurpose.getNameFromType
  if keyTypeName = "" then some none
  else if keyPurposeName = "" then some none
  else
    (m.keyVersionsMap.entries.mapM fun entry : Int × KeyVersion => entry.2.toJson).map fun versions =>
      some (.dictionary (dictionary m.name keyTypeName keyPurposeName m.encrypted
        (if publicExport then none else some m.nextKeyVersionNumber) versions))

/-- What `WriteMetadata` writes of metadata, if it has a value. -/
def text (m : KeysetMetadata) (publicExport : Bool) : Option (Option Bytes) :=
  (m.toJson publicExport).map fun value => value.map fun value => JSONWriter.write value true

/-- What `ReadMetadata` and `CreateFromValue` make of a text. -/
def ofText (text : Bytes) : Option (Option KeysetMetadata) :=
  match JSONReader.readAndReturnError text false with
  | .error _ => some none
  | .ok value => ofValue value

end KeysetMetadata

/-! ## What is read of what was written -/

@[simp] theorem orNull_some {α β : Type} (a : α) (f : α → Option (Option β)) : orNull (some a) f = f a := rfl

/-- A version is read from its dictionary. -/
theorem KeyVersion.ofValue_dictionary (n : Int) {name : String} (hname : IsStd name) (exportable : Bool) :
    ofValue (dictionary n name exportable) =
      if KeyStatus.getTypeFromName name = .undefined then some none
      else if n < 0 then none else some (some ⟨n, .getTypeFromName name, exportable⟩) := by
  unfold dictionary ofValue getInteger getString getBoolean
  simp (disch := decide) only [Entries.get_set_self, Entries.get_set_of_ne, orNull_some, stdString_asciiString hname]

namespace KeysetMetadata

theorem addValue_dictionary (hasNext : Bool) (m : KeysetMetadata) (next : Int) {value : VersionValue} (hstatus : IsStd value.status) :
    addValue hasNext m next (KeyVersion.dictionary value.versionNumber value.status value.exportable) =
      createVersion hasNext m next value := by
  unfold addValue createVersion
  rw [KeyVersion.ofValue_dictionary _ hstatus]
  by_cases hundefined : KeyStatus.getTypeFromName value.status = .undefined
  · rw [if_pos hundefined, if_pos hundefined]
  · rw [if_neg hundefined, if_neg hundefined]
    by_cases hneg : value.versionNumber < 0
    · rw [if_pos hneg, if_pos hneg]
    · generalize hadd : addVersion m _ = added
      rcases added with _ | ⟨_ | _, _, _⟩ <;> simp only [if_neg hneg, hadd]

/-- The loop over the dictionaries of versions is the loop over the versions. -/
theorem addValues_dictionaries (hasNext : Bool) (m : KeysetMetadata) (next : Int) {values : List VersionValue}
    (hstatus : ∀ value ∈ values, IsStd value.status) :
    addValues hasNext m next (values.map fun value => KeyVersion.dictionary value.versionNumber value.status value.exportable) =
      createVersions hasNext m next values := by
  induction values generalizing m next with
  | nil => rfl
  | cons value values ih =>
    rw [List.map_cons, addValues, createVersions, addValue_dictionary hasNext m next (hstatus value List.mem_cons_self)]
    cases createVersion hasNext m next value with
    | none => rfl
    | some turn =>
      cases turn with
      | none => rfl
      | some p => exact ih p.1 p.2 fun v hv => hstatus v (List.mem_cons_of_mem value hv)

/-- Parsed metadata as the dictionary it was parsed from. -/
def json (value : MetadataValue) : Value :=
  .dictionary (dictionary value.name value.type value.purpose value.encrypted value.nextKeyVersionNumber
    (value.versions.map fun value => KeyVersion.dictionary value.versionNumber value.status value.exportable))

/-- What the dictionary of metadata has under its keys. -/
theorem get_dictionary (name type purpose : String) (encrypted : Bool) (next : Option Int) (versions : List Value) :
    (dictionary name type purpose encrypted next versions).get (asciiString "name") = some (.string (asciiString name)) ∧
    (dictionary name type purpose encrypted next versions).get (asciiString "type") = some (.string (asciiString type)) ∧
    (dictionary name type purpose encrypted next versions).get (asciiString "purpose") = some (.string (asciiString purpose)) ∧
    (dictionary name type purpose encrypted next versions).get (asciiString "encrypted") = some (.boolean encrypted) ∧
    (dictionary name type purpose encrypted next versions).get (asciiString "nextKeyVersionNumber") = next.map Value.integer ∧
    (dictionary name type purpose encrypted next versions).get (asciiString "versions") = some (.list versions) := by
  unfold dictionary
  cases next with
  | none => simp (disch := decide) only [Entries.get_set_self, Entries.get_set_of_ne, Entries.get_nil, Option.map_none, and_self]
  | some next => simp (disch := decide) only [Entries.get_set_self, Entries.get_set_of_ne, Option.map_some, and_self]

/-- Metadata is made of its dictionary as it is of the parsed text. -/
theorem ofValue_json {value : MetadataValue} (hname : IsStd value.name) (htype : IsStd value.type) (hpurpose : IsStd value.purpose)
    (hstatus : ∀ v ∈ value.versions, IsStd v.status) : ofValue (json value) = createFromValue value := by
  obtain ⟨hgname, hgtype, hgpurpose, hgencrypted, hgnext, hgversions⟩ := get_dictionary value.name value.type value.purpose
    value.encrypted value.nextKeyVersionNumber
    (value.versions.map fun value => KeyVersion.dictionary value.versionNumber value.status value.exportable)
  unfold ofValue json createFromValue getString getBoolean getList
  generalize dictionary value.name value.type value.purpose value.encrypted value.nextKeyVersionNumber _ = metadata at *
  have hhas : hasKey metadata (asciiString "nextKeyVersionNumber") = value.nextKeyVersionNumber.isSome := by
    rw [Entries.hasKey_eq (by decide), hgnext, Option.isSome_map]
  have hnext : (if hasKey metadata (asciiString "nextKeyVersionNumber") = true then
      getInteger metadata (asciiString "nextKeyVersionNumber") else some 1) = some (value.nextKeyVersionNumber.getD 1) := by
    rw [hhas]
    unfold getInteger
    rw [hgnext]
    cases value.nextKeyVersionNumber with
    | none => rfl
    | some next => rfl
  dsimp only
  rw [hgname, hgtype, hgpurpose, hgencrypted, hgversions, hnext, hhas, orNull_some, orNull_some, orNull_some, orNull_some,
    orNull_some, stdString_asciiString hname, stdString_asciiString htype, stdString_asciiString hpurpose]
  by_cases htype' : KeyType.getTypeFromName value.type = .undefined
  · rw [if_pos htype', if_pos (Or.inl htype')]
  · by_cases hpurpose' : KeyPurpose.getTypeFromName value.purpose = .undefined
    · rw [if_neg htype', if_pos hpurpose', if_pos (Or.inr hpurpose')]
    · rw [if_neg htype', if_neg hpurpose', if_neg (not_or.mpr ⟨htype', hpurpose'⟩)]
      by_cases hpos : value.nextKeyVersionNumber.getD 1 ≤ 0
      · rw [if_pos hpos, if_pos hpos]
      · rw [if_neg hpos, if_neg hpos]
        generalize hcreate : createVersions _ _ _ _ = created
        rcases created with _ | _ | ⟨m, next⟩ <;> simp only [orNull_some, addValues_dictionaries _ _ _ hstatus, hcreate]

/-! ## The dictionaries that are written -/

end KeysetMetadata

instance (s : String) : Decidable (IsStd s) := inferInstanceAs (Decidable (∀ c ∈ s.toList, c.toNat < 256))

/-- A name of the enumerations is read as it is, and is UTF-8. -/
theorem KeyStatus.name_spec (status : KeyStatus) :
    IsStd status.getNameFromType ∧ isStringUTF8 (asciiString status.getNameFromType) = true := by
  cases status <;> decide

theorem KeyType.name_spec (t : KeyType) : IsStd t.getNameFromType ∧ isStringUTF8 (asciiString t.getNameFromType) = true := by
  cases t <;> decide

theorem KeyPurpose.name_spec (t : KeyPurpose) : IsStd t.getNameFromType ∧ isStringUTF8 (asciiString t.getNameFromType) = true := by
  cases t <;> decide

theorem KeyVersion.proper_dictionary {n : Int} (hn : InIntRange n) (name : String) (exportable : Bool) :
    (dictionary n name exportable).Proper :=
  ((Value.proper_empty.set _ (.integer hn)).set _ (.string _)).set _ (.boolean _)

theorem KeyVersion.within_dictionary (n : Int) (name : String) (exportable : Bool) (levels : Nat) :
    (dictionary n name exportable).Within (levels + 2) := by
  refine Entries.forall_mem_set (by decide) (Entries.forall_mem_set (by decide) (Entries.forall_mem_set (by decide) ?_ ?_) ?_) ?_
  · exact List.forall_mem_nil _
  all_goals exact trivial

theorem KeyVersion.utf8_dictionary (n : Int) {name : String} (hname : isStringUTF8 (asciiString name) = true) (exportable : Bool) :
    (dictionary n name exportable).Utf8 := by
  refine Value.utf8_dictionary.mpr ?_
  refine Entries.forall_mem_set (by decide) (Entries.forall_mem_set (by decide) (Entries.forall_mem_set (by decide) ?_ ?_) ?_) ?_
  · exact List.forall_mem_nil _
  · exact ⟨(by decide : isStringUTF8 (asciiString "versionNumber") = true), .integer n⟩
  · exact ⟨(by decide : isStringUTF8 (asciiString "status") = true), .string hname⟩
  · exact ⟨(by decide : isStringUTF8 (asciiString "exportable") = true), .boolean exportable⟩

namespace KeysetMetadata

/-- What holds of the entries of metadata holds of the dictionary. -/
theorem forall_mem_dictionary {p : Bytes × Value → Prop} {name type purpose : String} {encrypted : Bool} {next : Option Int}
    {versions : List Value} (hname : p (asciiString "name", .string (asciiString name)))
    (htype : p (asciiString "type", .string (asciiString type))) (hpurpose : p (asciiString "purpose", .string (asciiString purpose)))
    (hencrypted : p (asciiString "encrypted", .boolean encrypted))
    (hnext : ∀ n, next = some n → p (asciiString "nextKeyVersionNumber", .integer n))
    (hversions : p (asciiString "versions", .list versions)) : ∀ e ∈ dictionary name type purpose encrypted next versions, p e := by
  refine Entries.forall_mem_set (by decide) ?_ hversions
  have hrest := Entries.forall_mem_set (by decide) (Entries.forall_mem_set (by decide) (Entries.forall_mem_set (by decide)
    (Entries.forall_mem_set (by decide) (List.forall_mem_nil p) hname) htype) hpurpose) hencrypted
  cases next with
  | none => exact hrest
  | some n => exact Entries.forall_mem_set (by decide) hrest (hnext n rfl)

theorem proper_dictionary (name type purpose : String) (encrypted : Bool) {next : Option Int} (hnext : ∀ n, next = some n → InIntRange n)
    {versions : List Value} (hversions : ∀ v ∈ versions, v.Proper) :
    (Value.dictionary (dictionary name type purpose encrypted next versions)).Proper := by
  have hrest := (((Value.proper_empty.set (asciiString "name") (.string (asciiString name))).set (asciiString "type")
    (.string (asciiString type))).set (asciiString "purpose") (.string (asciiString purpose))).set (asciiString "encrypted")
    (.boolean encrypted)
  cases next with
  | none => exact hrest.set _ (.list hversions)
  | some n => exact (hrest.set _ (.integer (hnext n rfl))).set _ (.list hversions)

/-- The type, the purpose and the statuses have names. -/
structure Named (m : KeysetMetadata) : Prop where
  keyType : m.keyType ≠ .undefined
  keyPurpose : m.keyPurpose ≠ .undefined
  keyStatus : ∀ {n v}, m.getVersion n = some v → v.keyStatus ≠ .undefined

theorem toJson_eq_some_iff (v : KeyVersion) (value : Value) : v.toJson = some value ↔
    v.keyStatus ≠ .undefined ∧ value = KeyVersion.dictionary v.versionNumber v.keyStatus.getNameFromType v.exportable := by
  unfold KeyVersion.toJson
  dsimp only
  by_cases h : v.keyStatus = .undefined
  · rw [if_pos (by rw [h]; rfl)]
    exact iff_of_false nofun fun hand => hand.1 h
  · rw [if_neg (by cases hs : v.keyStatus <;> first | exact absurd hs h | exact of_decide_eq_true rfl), Option.some_inj]
    exact ⟨fun heq => ⟨h, heq.symm⟩, fun hand => hand.2.symm⟩

/-- The versions have values exactly when their statuses have names. -/
theorem mapM_toJson (entries : List (Int × KeyVersion)) (values : List Value) :
    (entries.mapM fun entry : Int × KeyVersion => entry.2.toJson) = some values ↔
      (∀ entry ∈ entries, entry.2.keyStatus ≠ .undefined) ∧ values = entries.map fun entry =>
        KeyVersion.dictionary entry.2.versionNumber entry.2.keyStatus.getNameFromType entry.2.exportable := by
  induction entries generalizing values with
  | nil => simp [eq_comm]
  | cons entry entries ih =>
    rw [List.mapM_cons, List.forall_mem_cons, List.map_cons, Option.bind_eq_bind, Option.bind_eq_some_iff]
    constructor
    · rintro ⟨value, hvalue, hrest⟩
      obtain ⟨values', hvalues', hpure⟩ := Option.bind_eq_some_iff.mp hrest
      obtain ⟨hstatus, rfl⟩ := (toJson_eq_some_iff _ _).mp hvalue
      obtain ⟨hall, rfl⟩ := (ih values').mp hvalues'
      exact ⟨⟨hstatus, hall⟩, (Option.some.inj hpure).symm⟩
    · rintro ⟨⟨hstatus, hall⟩, rfl⟩
      exact ⟨_, (toJson_eq_some_iff _ _).mpr ⟨hstatus, rfl⟩, Option.bind_eq_some_iff.mpr ⟨_, (ih _).mpr ⟨hall, rfl⟩, rfl⟩⟩

/-- Metadata has a value without null pointers exactly when all names are there. -/
theorem toJson_eq_some_some_iff (m : KeysetMetadata) (publicExport : Bool) (value : Value) :
    m.toJson publicExport = some (some value) ↔ Named m ∧ value = json (m.toValue publicExport) := by
  have hmem : ∀ {n v}, (n, v) ∈ m.keyVersionsMap.entries ↔ m.getVersion n = some v := m.keyVersionsMap.mem_entries_iff
  unfold toJson
  dsimp only
  by_cases htype : m.keyType = .undefined
  · rw [if_pos (by rw [htype]; rfl)]
    exact iff_of_false nofun fun h => h.1.keyType htype
  · rw [if_neg (by cases hs : m.keyType <;> first | exact absurd hs htype | exact of_decide_eq_true rfl)]
    by_cases hpurpose : m.keyPurpose = .undefined
    · rw [if_pos (by rw [hpurpose]; rfl)]
      exact iff_of_false nofun fun h => h.1.keyPurpose hpurpose
    · rw [if_neg (by cases hs : m.keyPurpose <;> first | exact absurd hs hpurpose | exact of_decide_eq_true rfl),
        Option.map_eq_some_iff]
      constructor
      · rintro ⟨values, hvalues, hvalue⟩
        obtain ⟨hstatus, rfl⟩ := (mapM_toJson _ _).mp hvalues
        refine ⟨⟨htype, hpurpose, fun hv => hstatus _ (hmem.mpr hv)⟩, ?_⟩
        rw [← Option.some.inj hvalue, json, toValue, List.map_map]
        rfl
      · rintro ⟨hnamed, rfl⟩
        refine ⟨_, (mapM_toJson _ _).mpr ⟨fun entry hentry => hnamed.keyStatus (hmem.mp hentry), rfl⟩, ?_⟩
        rw [json, toValue, List.map_map]
        rfl

/-! ## Metadata as text and back -/

/-- The next number and the numbers of the versions are `int`s. -/
structure Ints (m : KeysetMetadata) : Prop where
  next : InIntRange m.nextKeyVersionNumber
  versions : ∀ {n v}, m.getVersion n = some v → InIntRange v.versionNumber

theorem Writable.named {m : KeysetMetadata} (h : Writable m) : Named m := ⟨h.keyType, h.keyPurpose, h.keyStatus⟩

theorem Same.eq {m m' : KeysetMetadata} (h : Same m m') : m' = m := by
  obtain ⟨hname, htype, hpurpose, hencrypted, hnext, hversions⟩ := h
  have hmap : m'.keyVersionsMap = m.keyVersionsMap := OrderedMap.ext_find hversions
  obtain ⟨name, keyType, keyPurpose, encrypted, next, map⟩ := m
  obtain ⟨name', keyType', keyPurpose', encrypted', next', map'⟩ := m'
  subst hname htype hpurpose hencrypted hnext hmap
  rfl

theorem mem_versions_toValue {m : KeysetMetadata} {publicExport : Bool} {value : VersionValue}
    (h : value ∈ (m.toValue publicExport).versions) : ∃ n v, m.getVersion n = some v ∧ value = v.value := by
  obtain ⟨entry, hentry, rfl⟩ := List.mem_map.mp h
  exact ⟨entry.1, entry.2, m.keyVersionsMap.mem_entries_iff.mp hentry, rfl⟩

theorem Ints.proper {m : KeysetMetadata} (h : Ints m) (publicExport : Bool) : (json (m.toValue publicExport)).Proper := by
  refine proper_dictionary _ _ _ _ ?_ ?_
  · intro n hn
    unfold toValue at hn
    cases publicExport with
    | false =>
      obtain rfl := Option.some.inj hn
      exact h.next
    | true => cases hn
  · intro v hv
    obtain ⟨value, hvalue, rfl⟩ := List.mem_map.mp hv
    obtain ⟨n, v, hget, rfl⟩ := mem_versions_toValue hvalue
    exact KeyVersion.proper_dictionary (h.versions hget) _ _

theorem within_json (value : MetadataValue) (levels : Nat) : (json value).Within (levels + 4) := by
  refine forall_mem_dictionary trivial trivial trivial trivial (fun _ _ => trivial) ?_
  intro v hv
  obtain ⟨version, -, rfl⟩ := List.mem_map.mp hv
  exact KeyVersion.within_dictionary _ _ _ levels

/-- Only the name can keep the text of metadata from being UTF-8. -/
theorem utf8_json_toValue (m : KeysetMetadata) (publicExport : Bool) :
    (json (m.toValue publicExport)).Utf8 ↔ isStringUTF8 (asciiString m.name) = true := by
  constructor
  · intro h
    have hproper : ∀ e ∈ dictionary m.name m.keyType.getNameFromType m.keyPurpose.getNameFromType m.encrypted
        (m.toValue publicExport).nextKeyVersionNumber _, isStringUTF8 e.1 = true ∧ e.2.Utf8 := Value.utf8_dictionary.mp h
    obtain ⟨hname, -⟩ := get_dictionary m.name m.keyType.getNameFromType m.keyPurpose.getNameFromType m.encrypted
      (m.toValue publicExport).nextKeyVersionNumber
      ((m.toValue publicExport).versions.map fun value => KeyVersion.dictionary value.versionNumber value.status value.exportable)
    rw [Entries.get_of_not_mem (by decide)] at hname
    exact Value.utf8_string.mp (hproper _ (OrderedMap.mem_of_findEntry hname)).2
  · intro h
    refine Value.utf8_dictionary.mpr (forall_mem_dictionary ?_ ?_ ?_ ?_ ?_ ?_)
    · exact ⟨(by decide : isStringUTF8 (asciiString "name") = true), .string h⟩
    · exact ⟨(by decide : isStringUTF8 (asciiString "type") = true), .string m.keyType.name_spec.2⟩
    · exact ⟨(by decide : isStringUTF8 (asciiString "purpose") = true), .string m.keyPurpose.name_spec.2⟩
    · exact ⟨(by decide : isStringUTF8 (asciiString "encrypted") = true), .boolean _⟩
    · intro n hn
      exact ⟨(by decide : isStringUTF8 (asciiString "nextKeyVersionNumber") = true), .integer n⟩
    · refine ⟨(by decide : isStringUTF8 (asciiString "versions") = true), .list ?_⟩
      intro v hv
      obtain ⟨value, hvalue, rfl⟩ := List.mem_map.mp hv
      obtain ⟨n, v, -, rfl⟩ := mem_versions_toValue hvalue
      exact KeyVersion.utf8_dictionary _ v.keyStatus.name_spec.2 _

/-- What is read of the text of metadata whose names are there: nothing when the name is not UTF-8, and what `CreateFromValue` makes if it
is. -/
theorem ofText_write {m : KeysetMetadata} (hints : Ints m) (hstd : IsStd m.name) (publicExport : Bool) :
    ofText (JSONWriter.write (json (m.toValue publicExport)) true) =
      if isStringUTF8 (asciiString m.name) = true then createFromValue (m.toValue publicExport) else some none := by
  obtain ⟨hread, hrefused⟩ := JSONReader.written_reads (hints.proper publicExport) rfl true false
  have hwithin : (json (m.toValue publicExport)).Within JSONReader.kStackLimit := within_json _ 96
  have hvalue : ofValue (json (m.toValue publicExport)) = createFromValue (m.toValue publicExport) := by
    refine ofValue_json hstd m.keyType.name_spec.1 m.keyPurpose.name_spec.1 ?_
    intro value hvalue
    obtain ⟨n, v, -, rfl⟩ := mem_versions_toValue hvalue
    exact v.keyStatus.name_spec.1
  unfold ofText
  by_cases hutf8 : isStringUTF8 (asciiString m.name) = true
  · rw [if_pos hutf8, hread ⟨hwithin, (utf8_json_toValue m publicExport).mpr hutf8⟩]
    exact hvalue
  · rw [if_neg hutf8]
    obtain ⟨message, hmessage⟩ := hrefused fun h => hutf8 ((utf8_json_toValue m publicExport).mp h.2)
    rw [hmessage]

theorem createFromValue_toValue {m : KeysetMetadata} (hm : Numbered m) (h : Writable m) :
    createFromValue (m.toValue false) = some (some m) := by
  obtain ⟨m', hread, hsame⟩ := h.roundTrips hm
  unfold reread at hread
  rw [h.getValue false] at hread
  dsimp only at hread
  rw [createFromDictionary_dictionary] at hread
  rw [hread, hsame.eq]

theorem next_pos_of_createFromValue {m m' : KeysetMetadata} (h : createFromValue (m.toValue false) = some (some m')) :
    0 < m.nextKeyVersionNumber := by
  unfold createFromValue at h
  dsimp only at h
  split at h
  · cases h
  · split at h
    · cases h
    · rename_i hpos
      exact not_le.mp hpos

/-- Metadata that a program can have is the metadata that its text is read as, exactly when its type, its purpose and its statuses have
names, its next number is positive and its name is UTF-8. -/
theorem ofText_text_iff {m : KeysetMetadata} (hm : Reachable m) (hints : Ints m) (hstd : IsStd m.name) :
    (∃ text, m.text false = some (some text) ∧ ofText text = some (some m)) ↔
      Writable m ∧ isStringUTF8 (asciiString m.name) = true := by
  constructor
  · rintro ⟨text, htext, hread⟩
    obtain ⟨value, hvalue, htext⟩ := Option.map_eq_some_iff.mp htext
    obtain ⟨value, rfl, rfl⟩ := Option.map_eq_some_iff.mp htext
    obtain ⟨hnamed, rfl⟩ := (toJson_eq_some_some_iff m false value).mp hvalue
    rw [ofText_write hints hstd] at hread
    split at hread
    · rename_i hutf8
      exact ⟨⟨hnamed.keyType, hnamed.keyPurpose, next_pos_of_createFromValue hread, hnamed.keyStatus⟩, hutf8⟩
    · cases hread
  · rintro ⟨hwritable, hutf8⟩
    refine ⟨_, ?_, (ofText_write hints hstd false).trans ?_⟩
    · rw [text, (toJson_eq_some_some_iff m false _).mpr ⟨hwritable.named, rfl⟩]
      rfl
    · rw [if_pos hutf8, createFromValue_toValue hm.numbered hwritable]

/-- New metadata, and its first version. -/
def firstVersion : KeysetMetadata where
  name := "first"
  keyType := .aes
  keyPurpose := .decryptAndEncrypt
  encrypted := false
  nextKeyVersionNumber := 2
  keyVersionsMap := OrderedMap.empty.insert 1 ⟨1, .primary, false⟩

theorem ofText_text_first : ∃ text, firstVersion.text false = some (some text) ∧ ofText text = some (some firstVersion) := by
  have hreachable : Reachable firstVersion :=
    .addVersion (v := ⟨0, .primary, false⟩) (.new "first" .aes .decryptAndEncrypt false Int.zero_lt_one) (Int.le_refl 0) rfl
  have hversion : ∀ {n v}, firstVersion.getVersion n = some v → v = ⟨1, .primary, false⟩ := by
    intro n v hv
    have hget := (OrderedMap.empty.find_insert 1 n (⟨1, .primary, false⟩ : KeyVersion)).symm.trans hv
    split at hget
    · exact (Option.some.inj hget).symm
    · cases hget
  refine (ofText_text_iff hreachable ⟨(by decide : InIntRange 2), fun hv => ?_⟩ (by decide)).mpr
    ⟨⟨by decide, by decide, by decide, fun hv => ?_⟩, by decide⟩
  all_goals
    rw [hversion hv]
    decide

end KeysetMetadata

end Cpp
