import Keyczar.Java.Keys

/-!
# Key sets of the Java library

The constructor of `Keyczar` reads the versions of a key set in order and registers each key under its hash and under its fallback
hashes. A hash may have any number of keys, in the order in which they were registered.
-/

namespace Java

inductive KeyStatus where
  | primary | active | inactive
  deriving DecidableEq, Repr

inductive KeyPurpose where
  | decryptAndEncrypt | encrypt | signAndVerify | verify | test
  deriving DecidableEq, Repr

/-- A version; two versions are equal when their numbers are. -/
structure KeyVersion where
  versionNumber : Int
  status : KeyStatus
  deriving DecidableEq, Repr

structure KeyMetadata where
  purpose : KeyPurpose
  versions : List KeyVersion
  encrypted : Bool := false

/-- A `KeyczarReader`, with the keys as its `getKey` and the builder of the key type together give them. -/
structure KeyczarReader where
  metadata : KeyMetadata
  getKey : Int → Except Exception KeyczarKey
  isEncryptedReader : Bool := false

/-- A `Keyczar` object. A hash without keys has none in its list. -/
structure Keyczar where
  primaryVersion : Option KeyVersion := none
  versionMap : Int → Option KeyczarKey := fun _ => none
  hashMap : Bytes → List KeyczarKey := fun _ => []

namespace Keyczar

variable (P : Primitives)

/-- `addKeyHashMap`. -/
def addKeyHashMap (z : Keyczar) (hash : Bytes) (key : KeyczarKey) : Keyczar :=
  { z with hashMap := fun h => if h = hash then z.hashMap h ++ [key] else z.hashMap h }

/-- The hashes a key is registered under, in order. -/
def hashes (key : KeyczarKey) : List Bytes := key.hash P :: key.fallbackHash P

/-- One turn of the constructor's loop. -/
def loadVersion (reader : KeyczarReader) (z : Keyczar) (version : KeyVersion) : Except Exception Keyczar := do
  if version.status = .primary ∧ z.primaryVersion.isSome then throw (.keyczar .singlePrimary)
  let primaryVersion := if version.status = .primary then some version else z.primaryVersion
  let key ← reader.getKey version.versionNumber
  let z := (hashes P key).foldl (fun z h => z.addKeyHashMap h key) { z with primaryVersion }
  return { z with versionMap := Function.update z.versionMap version.versionNumber (some key) }

/-- The constructor. -/
def new (isAcceptablePurpose : KeyPurpose → Bool) (reader : KeyczarReader) : Except Exception Keyczar := do
  if !isAcceptablePurpose reader.metadata.purpose then throw (.keyczar .unacceptablePurpose)
  if reader.metadata.encrypted && !reader.isEncryptedReader then throw (.keyczar .needEncryptedReader)
  reader.metadata.versions.foldlM (loadVersion P reader) {}

/-- `getPrimaryKey`. -/
def getPrimaryKey (z : Keyczar) : Option KeyczarKey := z.primaryVersion.bind fun v => z.versionMap v.versionNumber

/-- `getKey`: the keys registered under a hash. -/
def getKey (z : Keyczar) (hash : Bytes) : List KeyczarKey := z.hashMap hash

/-! ## What is registered -/

theorem hashMap_addKeyHashMap (z : Keyczar) (hash h : Bytes) (key : KeyczarKey) :
    (z.addKeyHashMap hash key).hashMap h = z.hashMap h ++ if h = hash then [key] else [] := by
  unfold addKeyHashMap
  by_cases hh : h = hash
  · simp [hh]
  · simp [hh]

/-- A key is added to the list of each of its hashes, once for every time the hash is among them. -/
theorem hashMap_foldl (hs : List Bytes) (key : KeyczarKey) (z : Keyczar) (h : Bytes) :
    (hs.foldl (fun z h => z.addKeyHashMap h key) z).hashMap h = z.hashMap h ++ (hs.filter (· = h)).map fun _ => key := by
  induction hs generalizing z with
  | nil => simp
  | cons a hs ih =>
    rw [List.foldl_cons, ih, hashMap_addKeyHashMap, List.append_assoc]
    congr 1
    by_cases ha : a = h
    · simp [ha]
    · have ha' : h ≠ a := fun h' => ha h'.symm
      simp [ha, ha']

theorem versionMap_foldl (hs : List Bytes) (key : KeyczarKey) (z : Keyczar) :
    (hs.foldl (fun z h => z.addKeyHashMap h key) z).versionMap = z.versionMap := by
  induction hs generalizing z with
  | nil => rfl
  | cons a hs ih => exact ih _

/-- What a turn of the loop adds. -/
theorem loadVersion_eq_ok {P : Primitives} {reader : KeyczarReader} {z z' : Keyczar} {version : KeyVersion}
    (h : loadVersion P reader z version = .ok z') :
    ∃ key, reader.getKey version.versionNumber = .ok key ∧
      (∀ x, z'.hashMap x = z.hashMap x ++ ((hashes P key).filter (· = x)).map fun _ => key) ∧
      z'.versionMap = Function.update z.versionMap version.versionNumber (some key) := by
  unfold loadVersion at h
  by_cases hp : version.status = .primary ∧ z.primaryVersion.isSome = true
  · rw [if_pos hp] at h
    cases h
  · rw [if_neg hp] at h
    cases hk : reader.getKey version.versionNumber with
    | error e =>
      rw [hk] at h
      cases h
    | ok key =>
      rw [hk] at h
      cases h
      refine ⟨key, rfl, fun x => hashMap_foldl _ key _ x, ?_⟩
      simp only [versionMap_foldl]

/-- The turns of the loop only add keys, and they add the key of each version under each of its hashes. -/
theorem mem_of_loadVersions {P : Primitives} {reader : KeyczarReader} {versions : List KeyVersion} {z z' : Keyczar}
    (h : versions.foldlM (loadVersion P reader) z = .ok z') :
    (∀ x, ∀ key ∈ z.hashMap x, key ∈ z'.hashMap x) ∧
      ∀ version ∈ versions, ∀ key, reader.getKey version.versionNumber = .ok key → ∀ x ∈ hashes P key, key ∈ z'.hashMap x := by
  induction versions generalizing z with
  | nil =>
    cases h
    exact ⟨fun _ _ hkey => hkey, nofun⟩
  | cons v versions ih =>
    rw [List.foldlM_cons] at h
    cases hload : loadVersion P reader z v with
    | error e =>
      rw [hload] at h
      cases h
    | ok z₁ =>
      rw [hload] at h
      obtain ⟨hmono, hmem⟩ := ih h
      obtain ⟨key, hkey, hmap, _⟩ := loadVersion_eq_ok hload
      refine ⟨fun x k hk => hmono x k ?_, ?_⟩
      · rw [hmap]
        exact List.mem_append_left _ hk
      · intro version hversion k hk x hx
        rcases List.mem_cons.mp hversion with rfl | hlater
        · obtain rfl : key = k := Except.ok.inj (hkey.symm.trans hk)
          refine hmono x key ?_
          rw [hmap]
          exact List.mem_append_right _ (List.mem_map.mpr ⟨x, List.mem_filter.mpr ⟨hx, decide_eq_true rfl⟩, rfl⟩)
        · exact hmem version hlater k hk x hx

/-- What the constructor made, it made by the turns of its loop. -/
theorem loadVersions_of_new {P : Primitives} {isAcceptablePurpose : KeyPurpose → Bool} {reader : KeyczarReader} {z : Keyczar}
    (h : new P isAcceptablePurpose reader = .ok z) : reader.metadata.versions.foldlM (loadVersion P reader) {} = .ok z := by
  unfold new at h
  by_cases hpurpose : (!isAcceptablePurpose reader.metadata.purpose) = true
  · rw [if_pos hpurpose] at h
    cases h
  · rw [if_neg hpurpose] at h
    by_cases hencrypted : (reader.metadata.encrypted && !reader.isEncryptedReader) = true
    · simp only [if_pos hencrypted] at h
      cases h
    · simp only [if_neg hencrypted] at h
      exact h

/-- The key of a version that was read is among the keys of each of its hashes. -/
theorem mem_getKey_of_new {P : Primitives} {isAcceptablePurpose : KeyPurpose → Bool} {reader : KeyczarReader} {z : Keyczar}
    (h : new P isAcceptablePurpose reader = .ok z) {version : KeyVersion} (hversion : version ∈ reader.metadata.versions)
    {key : KeyczarKey} (hkey : reader.getKey version.versionNumber = .ok key) {x : Bytes} (hx : x ∈ hashes P key) :
    key ∈ z.getKey x := by
  exact (mem_of_loadVersions (loadVersions_of_new h)).2 version hversion key hkey x hx

/-- Every key of a version is among the keys of each of its hashes. -/
def Registered (P : Primitives) (z : Keyczar) : Prop :=
  ∀ n key, z.versionMap n = some key → ∀ x ∈ hashes P key, key ∈ z.hashMap x

theorem Registered.loadVersion {P : Primitives} {reader : KeyczarReader} {z z' : Keyczar} {version : KeyVersion}
    (hz : Registered P z) (h : loadVersion P reader z version = .ok z') : Registered P z' := by
  obtain ⟨key, _, hmap, hversions⟩ := loadVersion_eq_ok h
  intro n key' hkey' x hx
  rw [hversions, Function.update_apply] at hkey'
  rw [hmap]
  split at hkey'
  · cases hkey'
    exact List.mem_append_right _ (List.mem_map.mpr ⟨x, List.mem_filter.mpr ⟨hx, decide_eq_true rfl⟩, rfl⟩)
  · exact List.mem_append_left _ (hz n key' hkey' x hx)

theorem registered_of_loadVersions {P : Primitives} {reader : KeyczarReader} {versions : List KeyVersion} {z z' : Keyczar}
    (hz : Registered P z) (h : versions.foldlM (Keyczar.loadVersion P reader) z = .ok z') : Registered P z' := by
  induction versions generalizing z with
  | nil =>
    cases h
    exact hz
  | cons v versions ih =>
    rw [List.foldlM_cons] at h
    cases hload : Keyczar.loadVersion P reader z v with
    | error e =>
      rw [hload] at h
      cases h
    | ok z₁ =>
      rw [hload] at h
      exact ih (hz.loadVersion hload) h

/-- The primary key is among the keys of its hash. -/
theorem mem_getKey_of_primary {P : Primitives} {isAcceptablePurpose : KeyPurpose → Bool} {reader : KeyczarReader} {z : Keyczar}
    (h : new P isAcceptablePurpose reader = .ok z) {key : KeyczarKey} (hkey : z.getPrimaryKey = some key) :
    key ∈ z.getKey (key.hash P) := by
  obtain ⟨v, _, hv⟩ := Option.bind_eq_some_iff.mp hkey
  exact registered_of_loadVersions (by exact nofun) (loadVersions_of_new h) v.versionNumber key hv _ List.mem_cons_self

end Keyczar

end Java
