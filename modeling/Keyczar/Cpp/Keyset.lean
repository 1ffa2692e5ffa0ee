import Keyczar.Cpp.Keyczar
import Keyczar.Lib.OrderedMap
import Mathlib.Logic.Function.Basic

/-!
# Key sets that change: `keyset_metadata.cc` and `keyset.cc`

The metadata, the number of the primary version, the keys by version number and the keys by hash are four structures that the
operations of a key set update one after the other. A version object belongs to the metadata and is named by its number. A `CHECK`
that fails aborts the program; the observers, which write what changed, are left out.
-/

namespace Cpp

/-! ## `key_status.cc`, `key_type.cc`, `key_purpose.cc` -/

inductive KeyStatus where
  | undefined | primary | active | inactive
  deriving DecidableEq, Repr

inductive KeyType where
  | undefined | aes | hmac | dsaPriv | dsaPub | ecdsaPriv | ecdsaPub | rsaPriv | rsaPub
  deriving DecidableEq, Repr

inductive KeyPurpose where
  | undefined | decryptAndEncrypt | encrypt | signAndVerify | verify
  deriving DecidableEq, Repr

/-- `KeyStatus::GetTypeFromName`. -/
def KeyStatus.getTypeFromName (name : String) : KeyStatus :=
  match name with
  | "PRIMARY" => .primary
  | "ACTIVE" => .active
  | "INACTIVE" => .inactive
  | _ => .undefined

/-- `KeyType::GetTypeFromName`. -/
def KeyType.getTypeFromName (name : String) : KeyType :=
  match name with
  | "AES" => .aes
  | "HMAC" => .hmac
  | "DSA_PRIV" => .dsaPriv
  | "DSA_PUB" => .dsaPub
  | "ECDSA_PRIV" => .ecdsaPriv
  | "ECDSA_PUB" => .ecdsaPub
  | "RSA_PRIV" => .rsaPriv
  | "RSA_PUB" => .rsaPub
  | _ => .undefined

/-- `KeyPurpose::GetTypeFromName`. -/
def KeyPurpose.getTypeFromName (name : String) : KeyPurpose :=
  match name with
  | "DECRYPT_AND_ENCRYPT" => .decryptAndEncrypt
  | "ENCRYPT" => .encrypt
  | "SIGN_AND_VERIFY" => .signAndVerify
  | "VERIFY" => .verify
  | _ => .undefined

/-! ## `keyset_metadata.cc` -/

/-- `KeyVersion`. -/
structure KeyVersion where
  versionNumber : Int
  keyStatus : KeyStatus
  exportable : Bool
  deriving DecidableEq, Repr

/-- `KeysetMetadata`. -/
structure KeysetMetadata where
  name : String
  keyType : KeyType
  keyPurpose : KeyPurpose
  encrypted : Bool
  nextKeyVersionNumber : Int
  keyVersionsMap : OrderedMap Int KeyVersion := .empty

/-- The JSON text of a version, parsed. -/
structure VersionValue where
  versionNumber : Int
  status : String
  exportable : Bool
  deriving DecidableEq, Repr

/-- The JSON text of the metadata, parsed. -/
structure MetadataValue where
  name : String
  type : String
  purpose : String
  encrypted : Bool
  nextKeyVersionNumber : Option Int
  versions : List VersionValue
  deriving DecidableEq, Repr

namespace KeysetMetadata

/-- The number that `AddVersion` gives to a version without one; `none` when the `CHECK` of `set_version_number` fails. -/
def assignNumber (m : KeysetMetadata) (keyVersion : KeyVersion) : Option (KeyVersion × KeysetMetadata) :=
  if keyVersion.versionNumber = 0 then
    if m.nextKeyVersionNumber ≤ 0 then none
    else some ({ keyVersion with versionNumber := m.nextKeyVersionNumber },
      { m with nextKeyVersionNumber := toInt (m.nextKeyVersionNumber + 1) })
  else some (keyVersion, m)

/-- `AddVersion`, with the version as it was numbered. -/
def addVersion (m : KeysetMetadata) (keyVersion : KeyVersion) : Option (Bool × KeyVersion × KeysetMetadata) :=
  (m.assignNumber keyVersion).map fun (keyVersion, m) =>
    if (m.keyVersionsMap.find keyVersion.versionNumber).isSome then (false, keyVersion, m)
    else (true, keyVersion, { m with keyVersionsMap := m.keyVersionsMap.insert keyVersion.versionNumber keyVersion })

/-- `RemoveVersion`. -/
def removeVersion (m : KeysetMetadata) (versionNumber : Int) : Bool × KeysetMetadata :=
  if (m.keyVersionsMap.find versionNumber).isSome then
    (true, { m with keyVersionsMap := m.keyVersionsMap.erase versionNumber })
  else (false, m)

/-- `GetVersion`. -/
def getVersion (m : KeysetMetadata) (versionNumber : Int) : Option KeyVersion := m.keyVersionsMap.find versionNumber

/-- `set_key_status` on the version with a number. -/
def setKeyStatus (m : KeysetMetadata) (versionNumber : Int) (status : KeyStatus) : KeysetMetadata :=
  match m.getVersion versionNumber with
  | none => m
  | some v => { m with keyVersionsMap := m.keyVersionsMap.insert versionNumber { v with keyStatus := status } }

/-- One turn of the loop of `CreateFromValue` over the versions; beside the metadata it computes the next version number. The outer
`none` is a `CHECK` that fails, the inner one a version that is refused. -/
def createVersion (hasNext : Bool) (m : KeysetMetadata) (next : Int) (value : VersionValue) :
    Option (Option (KeysetMetadata × Int)) :=
  if KeyStatus.getTypeFromName value.status = .undefined then some none
  else if value.versionNumber < 0 then none
  else
    match m.addVersion ⟨value.versionNumber, .getTypeFromName value.status, value.exportable⟩ with
    | none => none
    | some (false, _, _) => some none
    | some (true, keyVersion, m) =>
      if !hasNext ∧ next ≤ keyVersion.versionNumber then some (some (m, toInt (keyVersion.versionNumber + 1)))
      else some (some (m, next))

/-- The loop. -/
def createVersions (hasNext : Bool) : KeysetMetadata → Int → List VersionValue → Option (Option (KeysetMetadata × Int))
  | m, next, [] => some (some (m, next))
  | m, next, value :: values =>
    match createVersion hasNext m next value with
    | none => none
    | some none => some none
    | some (some (m, next)) => createVersions hasNext m next values

/-- `CreateFromValue`. -/
def createFromValue (value : MetadataValue) : Option (Option KeysetMetadata) :=
  let keyType := KeyType.getTypeFromName value.type
  let keyPurpose := KeyPurpose.getTypeFromName value.purpose
  if keyType = .undefined ∨ keyPurpose = .undefined then some none
  else
    let next := value.nextKeyVersionNumber.getD 1
    if next ≤ 0 then none
    else
      let m := { name := value.name, keyType, keyPurpose, encrypted := value.encrypted, nextKeyVersionNumber := next }
      match createVersions value.nextKeyVersionNumber.isSome m next value.versions with
      | none => none
      | some none => some none
      | some (some (m, next)) =>
        if value.nextKeyVersionNumber.isSome then some (some m) else some (some { m with nextKeyVersionNumber := next })

end KeysetMetadata

/-! ## Hashes of keys -/

/-- `find_first_not_of`. -/
def findFirstNotOf (s : Bytes) (c : UInt8) : Size :=
  match s.findIdx? (· ≠ c) with
  | some i => .of i
  | none => .npos

/-- `BuggyHash` of an AES key: its leading zeros are not hashed. -/
def AESKey.buggyHash (P : Primitives) (k : AESKey) : Except Exception (Option Bytes) :=
  if k.aesImpl.key.head? ≠ some 0 then return none
  else do
    let trimmedField ← substr k.aesImpl.key (findFirstNotOf k.aesImpl.key 0)
    return base64WEncode ((P.sha1 (addToHash trimmedField ++ k.hmacKey.keyBytes)).take kKeyHashSize)

namespace Key

variable (P : Primitives)

/-- `Hash`. -/
def hash : Key → Option Bytes
  | .aes k => k.hash P
  | .hmac k => k.hash P
  | .rsaPrivate k => some k.hash
  | .other hash _ => some hash

/-- `BuggyHash`: only AES keys have one. -/
def buggyHash : Key → Except Exception (Option Bytes)
  | .aes k => k.buggyHash P
  | _ => .ok none

end Key

/-! ## `keyset.cc` -/

/-- `Keyset`, with all its members. -/
structure ManagedKeyset where
  metadata : KeysetMetadata
  primaryKeyVersionNumber : Int := 0
  versionNumberMap : OrderedMap Int Key := .empty
  hashMap : Bytes → Option Key := fun _ => none

/-- Where a key set is read from: the metadata, and the key of each version number, read as a key of the type. -/
structure KeysetReader where
  readMetadata : Option MetadataValue
  readKey : KeyType → Int → Option Key

namespace ManagedKeyset

variable (P : Primitives) (s : ManagedKeyset)

/-- The members that decryption and verification see. -/
def keyset : Keyset where
  versionNumberMap := s.versionNumberMap.entries
  hashMap := s.hashMap

/-- `GetKey`. -/
def getKey (versionNumber : Int) : Option Key := s.versionNumberMap.find versionNumber

/-- `GetPrimaryKeyVersion`. -/
def getPrimaryKeyVersion : Option KeyVersion := s.metadata.getVersion s.primaryKeyVersionNumber

/-- `AddKey`. -/
def addKey (key : Key) (versionNumber : Int) : Except Exception Bool × ManagedKeyset :=
  if versionNumber ≤ 0 ∨ (s.metadata.getVersion versionNumber).isNone ∨ (s.versionNumberMap.find versionNumber).isSome then
    (.ok false, s)
  else
    match key.hash P with
    | none => (.ok false, s)
    | some hash =>
      if (s.hashMap hash).isSome then (.ok false, s)
      else
        let s := { s with
          versionNumberMap := s.versionNumberMap.insert versionNumber key
          hashMap := Function.update s.hashMap hash (some key) }
        match key.buggyHash P with
        | .error e => (.error e, s)
        | .ok none => (.ok true, s)
        | .ok (some hash) => (.ok true, { s with hashMap := Function.update s.hashMap hash (some key) })

/-- `set_key_status` on the version with a number. -/
def setKeyStatus (versionNumber : Int) (status : KeyStatus) : ManagedKeyset :=
  { s with metadata := s.metadata.setKeyStatus versionNumber status }

/-- `UpdateKeyStatus` of the version with a number. For the former primary version it calls itself with status ACTIVE. -/
def updateKeyStatus (newStatus : KeyStatus) (versionNumber : Int) : Bool × ManagedKeyset :=
  match newStatus with
  | .primary =>
    if s.primaryKeyVersionNumber ≠ 0 ∧ s.getPrimaryKeyVersion.isNone then (false, s)
    else
      let s := if s.getPrimaryKeyVersion.isSome then s.setKeyStatus s.primaryKeyVersionNumber .active else s
      (true, { s with primaryKeyVersionNumber := versionNumber }.setKeyStatus versionNumber .primary)
  | .active => (true, s.setKeyStatus versionNumber .active)
  | .inactive => (true, s.setKeyStatus versionNumber .inactive)
  | .undefined => (false, s)

/-- `PromoteKey`. -/
def promoteKey (versionNumber : Int) : Bool × ManagedKeyset :=
  if versionNumber ≤ 0 then (false, s)
  else
    match s.metadata.getVersion versionNumber with
    | none => (false, s)
    | some keyVersion =>
      match keyVersion.keyStatus with
      | .primary => (false, s)
      | .active => s.updateKeyStatus .primary versionNumber
      | .inactive => s.updateKeyStatus .active versionNumber
      | .undefined => (false, s)

/-- `DemoteKey`. -/
def demoteKey (versionNumber : Int) : Bool × ManagedKeyset :=
  if versionNumber ≤ 0 then (false, s)
  else
    match s.metadata.getVersion versionNumber with
    | none => (false, s)
    | some keyVersion =>
      match keyVersion.keyStatus with
      | .primary =>
        let (updated, s) := s.updateKeyStatus .active versionNumber
        (true, if updated then { s with primaryKeyVersionNumber := 0 } else s)
      | .active => s.updateKeyStatus .inactive versionNumber
      | .inactive => (false, s)
      | .undefined => (false, s)

/-- `RemoveKey`. -/
def removeKey (versionNumber : Int) : Bool × ManagedKeyset :=
  match s.versionNumberMap.find versionNumber with
  | none => (false, s)
  | some key =>
    match key.hash P with
    | none => (false, s)
    | some hash =>
      if (s.hashMap hash).isNone then (false, s)
      else (true, { s with
        versionNumberMap := s.versionNumberMap.erase versionNumber
        hashMap := Function.update s.hashMap hash none })

/-- `RevokeKey`. What `RemoveKey` answers is ignored. -/
def revokeKey (versionNumber : Int) : Bool × ManagedKeyset :=
  if versionNumber ≤ 0 then (false, s)
  else
    match s.metadata.getVersion versionNumber with
    | none => (false, s)
    | some keyVersion =>
      if keyVersion.keyStatus ≠ .inactive then (false, s)
      else (true, ({ s with metadata := (s.metadata.removeVersion versionNumber).2 }.removeKey P versionNumber).2)

/-- `AddKeyVersion`; `none` when a `CHECK` fails. -/
def addKeyVersion (keyVersion : KeyVersion) : Option (Int × ManagedKeyset) :=
  if keyVersion.versionNumber ≠ 0 then some (0, s)
  else
    match s.metadata.addVersion keyVersion with
    | none => none
    | some (false, _, metadata) => some (0, { s with metadata })
    | some (true, keyVersion, metadata) =>
      let s := { s with metadata }
      if keyVersion.keyStatus = .primary then
        match s.updateKeyStatus .primary keyVersion.versionNumber with
        | (true, s) => some (keyVersion.versionNumber, s)
        | (false, _) => none
      else some (keyVersion.versionNumber, s)

/-- The end of `GenerateKey` and `ImportPrivateKey`: the primary version makes room, and the version and its key are added. -/
def addNewKey (status : KeyStatus) (key : Key) : Option (Except Exception Int × ManagedKeyset) :=
  let (demoted, s) :=
    if status = .primary ∧ 0 < s.primaryKeyVersionNumber then s.demoteKey s.primaryKeyVersionNumber else (true, s)
  if !demoted then some (.ok 0, s)
  else
    match s.addKeyVersion ⟨0, status, false⟩ with
    | none => none
    | some (versionNumber, s) =>
      if versionNumber = 0 then some (.ok 0, s)
      else
        match s.addKey P key versionNumber with
        | (.error e, s) => some (.error e, s)
        -- a build without assertions leaves the version it has added
        | (.ok false, s) => some (.ok 0, s)
        | (.ok true, s) => some (.ok versionNumber, s)

/-- The loop of `GenerateKey`: the list is what `Key::GenerateKey` returns, call after call. `none` when the loop goes on after all
of it, and the inner `none` when a key cannot be made. -/
def generateUnusedKey : List (Option Key) → Option (Option Key)
  | [] => none
  | none :: _ => some none
  | some key :: generated =>
    match key.hash P with
    | none => some none
    | some hash => if (s.hashMap hash).isSome then generateUnusedKey generated else some (some key)

/-- `GenerateKey`; `none` when it does not return. -/
def generateKey (status : KeyStatus) (generated : List (Option Key)) : Option (Except Exception Int × ManagedKeyset) :=
  if s.metadata.keyType = .undefined then some (.ok 0, s)
  else
    match s.generateUnusedKey P generated with
    | none => none
    | some none => some (.ok 0, s)
    | some (some key) => s.addNewKey P status key

/-- `ImportPrivateKey` of the key that a file gives. -/
def importPrivateKey (status : KeyStatus) (imported : Option Key) : Option (Except Exception Int × ManagedKeyset) :=
  if s.metadata.keyType = .undefined then some (.ok 0, s)
  else
    match imported with
    | none => some (.ok 0, s)
    | some key =>
      match key.hash P with
      | none => some (.ok 0, s)
      | some hash => if (s.hashMap hash).isSome then some (.ok 0, s) else s.addNewKey P status key

/-- One turn of the loop of `Read`; the inner `none` when the key set is refused. -/
def readVersion (reader : KeysetReader) (loadKeys : Bool) (s : ManagedKeyset) (version : Int × KeyVersion) :
    Except Exception (Option ManagedKeyset) := do
  let loaded ←
    if loadKeys then
      match reader.readKey s.metadata.keyType version.1 with
      | none => pure none
      | some key =>
        match s.addKey P key version.1 with
        | (.error e, _) => throw e
        | (.ok false, _) => pure none
        | (.ok true, s) => pure (some s)
    else pure (some s)
  match loaded with
  | none => return none
  | some s =>
    if version.2.keyStatus = .primary then
      if 0 < s.primaryKeyVersionNumber then return none
      else return some { s with primaryKeyVersionNumber := version.1 }
    else return some s

/-- The loop. -/
def readVersions (reader : KeysetReader) (loadKeys : Bool) :
    ManagedKeyset → List (Int × KeyVersion) → Except Exception (Option ManagedKeyset)
  | s, [] => return some s
  | s, version :: versions => do
    match ← readVersion P reader loadKeys s version with
    | none => return none
    | some s => readVersions reader loadKeys s versions

/-- `Read`; `none` when a `CHECK` fails. -/
def read (reader : KeysetReader) (loadKeys : Bool) : Option (Except Exception (Option ManagedKeyset)) :=
  match reader.readMetadata with
  | none => some (.ok none)
  | some value =>
    match KeysetMetadata.createFromValue value with
    | none => none
    | some none => some (.ok none)
    | some (some metadata) => some (readVersions P reader loadKeys { metadata } metadata.keyVersionsMap.entries)

end ManagedKeyset

end Cpp
