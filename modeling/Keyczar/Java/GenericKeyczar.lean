import Keyczar.Java.Keyczar
import Keyczar.Lib.ObjectHeap

/-!
# The key-set state machine: `GenericKeyczar`, with `KeyMetadata` and `KeyVersion`

A version is an object that the list of the metadata, the map of the metadata, the map of keys and the primary version refer to. Two
version objects are equal when their numbers are. The type of a key set is left out: the reader and the generator give keys of it.
-/

namespace Java

/-- Where a `KeyVersion` object lives. -/
abbrev Ref : Type := Nat

/-- A `KeyVersion` object; its status may be `null`. -/
structure VersionObject where
  versionNumber : Int
  status : Option KeyStatus
  exportable : Bool
  deriving DecidableEq, Repr

/-- The JSON text of the metadata, parsed. -/
structure JsonMetadata where
  name : String
  purpose : Option KeyPurpose
  encrypted : Bool
  versions : List VersionObject
  deriving DecidableEq, Repr

/-- Where a key set is read from, with the keys as `getKey` and the builder of the key type together give them. -/
structure JsonReader where
  metadata : JsonMetadata
  getKey : Int → Except Exception KeyczarKey
  isEncryptedReader : Bool := false

/-- `KeyMetadata`: a list of versions, and a map from numbers to versions. -/
structure MetadataObject where
  name : String
  purpose : Option KeyPurpose
  encrypted : Bool
  versions : List Ref := []
  versionMap : Int → Option Ref := fun _ => none

/-- `GenericKeyczar`. -/
structure GenericKeyczar where
  heap : ObjectHeap VersionObject
  kmd : MetadataObject
  primaryVersion : Option Ref := none
  versionMap : List (Ref × KeyczarKey) := []
  hashMap : Bytes → List KeyczarKey := fun _ => []

/-- What `write` emits: a file for each version with its key, and the metadata. -/
structure Written where
  keyFile : Int → Option KeyczarKey := fun _ => none
  metadata : JsonMetadata

/-- `setStatus` of an object with a status. -/
def setStatus (heap : ObjectHeap VersionObject) (r : Ref) (status : KeyStatus) : ObjectHeap VersionObject :=
  heap.modify r fun v => { v with status := some status }

/-- `setStatus`, of an object that may be `null`, after the test that it is not. -/
def setStatusOfSome (heap : ObjectHeap VersionObject) (r : Option Ref) (status : KeyStatus) : ObjectHeap VersionObject :=
  match r with
  | some r => setStatus heap r status
  | none => heap

namespace MetadataObject

/-- `addVersion`: a number that is already there is refused. -/
def addVersion (m : MetadataObject) (versionNumber : Int) (version : Ref) : Bool × MetadataObject :=
  if (m.versionMap versionNumber).isSome then (false, m)
  else (true, { m with
    versions := m.versions ++ [version], versionMap := Function.update m.versionMap versionNumber (some version) })

/-- `removeVersion`: of the list, the first version that is equal is removed. -/
def removeVersion (m : MetadataObject) (heap : ObjectHeap VersionObject) (versionNumber : Int) : Bool × MetadataObject :=
  match m.versionMap versionNumber with
  | none => (false, m)
  | some version => (true, { m with
      versions := m.versions.eraseP fun r => (heap.object r).versionNumber = (heap.object version).versionNumber
      versionMap := Function.update m.versionMap versionNumber none })

/-- `buildVersions`. -/
def buildVersions (versions : List VersionObject) : List Ref × ObjectHeap VersionObject :=
  versions.foldl (fun (list, heap) version => (list ++ [heap.next], heap.alloc version)) ([], .empty ⟨0, none, false⟩)

/-- `read`: a version with the number of an earlier one takes its place in the map. -/
def read (json : JsonMetadata) : MetadataObject × ObjectHeap VersionObject :=
  let (versions, heap) := buildVersions json.versions
  ({ name := json.name
     purpose := json.purpose
     encrypted := json.encrypted
     versions
     versionMap := versions.foldl (fun m r => Function.update m (heap.object r).versionNumber (some r)) fun _ => none }, heap)

end MetadataObject

namespace GenericKeyczar

variable (P : Primitives) (z : GenericKeyczar)

/-- The number of a version. -/
def number (r : Ref) : Int := (z.heap.object r).versionNumber

/-- The status of a version. -/
def status (r : Ref) : Option KeyStatus := (z.heap.object r).status

/-! ## `Keyczar` -/

/-- `addKeyHashMap`. -/
def addKeyHashMap (hash : Bytes) (key : KeyczarKey) : GenericKeyczar :=
  { z with hashMap := fun h => if h = hash then z.hashMap h ++ [key] else z.hashMap h }

/-- `versionMap.put`: an equal version that is already there stays, with the new key. -/
def putKey (number : Ref → Int) (version : Ref) (key : KeyczarKey) : List (Ref × KeyczarKey) → List (Ref × KeyczarKey)
  | [] => [(version, key)]
  | (r, key') :: l => if number r = number version then (r, key) :: l else (r, key') :: putKey number version key l

/-- One turn of the constructor's loop. -/
def loadVersion (reader : JsonReader) (version : Ref) : Except Exception GenericKeyczar := do
  if z.status version = some .primary ∧ z.primaryVersion.isSome then throw (.keyczar .singlePrimary)
  let primaryVersion := if z.status version = some .primary then some version else z.primaryVersion
  let key ← reader.getKey (z.number version)
  let z := (Keyczar.hashes P key).foldl (fun z h => z.addKeyHashMap h key) { z with primaryVersion }
  return { z with versionMap := putKey z.number version key z.versionMap }

/-- The constructor; every purpose is acceptable. -/
def new (reader : JsonReader) : Except Exception GenericKeyczar := do
  let (kmd, heap) := MetadataObject.read reader.metadata
  if kmd.encrypted && !reader.isEncryptedReader then throw (.keyczar .needEncryptedReader)
  kmd.versions.foldlM (fun z version => z.loadVersion P reader version) { heap, kmd }

/-- `addKey`. -/
def addKey (version : Ref) (key : KeyczarKey) : GenericKeyczar :=
  let z := z.addKeyHashMap (key.hash P) key
  { z with
    versionMap := putKey z.number version key z.versionMap
    kmd := (z.kmd.addVersion (z.number version) version).2 }

/-- `getKey` of a hash. -/
def getKey (hash : Bytes) : List KeyczarKey := z.hashMap hash

/-! ## `GenericKeyczar` -/

/-- `getVersions`. -/
def getVersions : List Ref := z.versionMap.map Prod.fst

/-- `maxVersion`. -/
def maxVersion : Int := z.getVersions.foldl (fun max r => if max < z.number r then z.number r else max) 0

/-- `getVersion`. -/
def getVersion (versionNumber : Int) : Except Exception Ref :=
  match z.kmd.versionMap versionNumber with
  | some version => .ok version
  | none => .error (.keyczar (.noSuchVersion versionNumber))

/-- `promote`. The switch over a status that is `null` throws. -/
def promote (versionNumber : Int) : Except Exception Unit × GenericKeyczar :=
  match z.getVersion versionNumber with
  | .error e => (.error e, z)
  | .ok version =>
    match z.status version with
    | none => (.error (.runtime .nullPointer), z)
    | some .primary => (.error (.keyczar .cantPromotePrimary), z)
    | some .active =>
      let heap := setStatus z.heap version .primary
      (.ok (), { z with heap := setStatusOfSome heap z.primaryVersion .active, primaryVersion := some version })
    | some .inactive => (.ok (), { z with heap := setStatus z.heap version .active })

/-- `demote`. -/
def demote (versionNumber : Int) : Except Exception Unit × GenericKeyczar :=
  match z.getVersion versionNumber with
  | .error e => (.error e, z)
  | .ok version =>
    match z.status version with
    | none => (.error (.runtime .nullPointer), z)
    | some .primary => (.ok (), { z with heap := setStatus z.heap version .active, primaryVersion := none })
    | some .active => (.ok (), { z with heap := setStatus z.heap version .inactive })
    | some .inactive => (.error (.keyczar .cantDemoteScheduled), z)

/-- The new version object, and the new primary version with the demotion of the old one. -/
def addVersionObject (status : Option KeyStatus) : GenericKeyczar :=
  let version := z.heap.next
  let heap := z.heap.alloc ⟨toInt32 (z.maxVersion + 1), status, false⟩
  if status = some .primary then
    { z with heap := setStatusOfSome heap z.primaryVersion .active, primaryVersion := some version }
  else { z with heap }

/-- `addVersion` of a key, which may be `null`; that shows when its hash is asked for. -/
def addVersion (status : Option KeyStatus) (key : Option KeyczarKey) : Except Exception Unit × GenericKeyczar :=
  match key with
  | none => (.error (.runtime .nullPointer), z.addVersionObject status)
  | some key => (.ok (), (z.addVersionObject status).addKey P z.heap.next key)

/-- The loop of `addVersion` that generates a key: the list is what `generate` returns, call after call. `none` when the loop goes on
after all of it. -/
def generateUnusedKey : List (Except Exception KeyczarKey) → Option (Except Exception KeyczarKey)
  | [] => none
  | .error e :: _ => some (.error e)
  | .ok key :: generated => if (z.hashMap (key.hash P)).isEmpty then some (.ok key) else generateUnusedKey generated

/-- `addVersion` of a generated key; `none` when it does not return. -/
def addGeneratedVersion (status : Option KeyStatus) (generated : List (Except Exception KeyczarKey)) :
    Option (Except Exception Unit × GenericKeyczar) :=
  match z.generateUnusedKey P generated with
  | none => none
  | some (.error e) => some (.error e, z)
  | some (.ok key) => some (z.addVersion P status (some key))

/-- `revoke`. The key stays in both maps. -/
def revoke (versionNumber : Int) : Except Exception Unit × GenericKeyczar :=
  match z.getVersion versionNumber with
  | .error e => (.error e, z)
  | .ok version =>
    if z.status version = some .inactive then (.ok (), { z with kmd := (z.kmd.removeVersion z.heap versionNumber).2 })
    else (.error (.keyczar .cantRevoke), z)

/-- `write`. -/
def write : Written where
  keyFile := z.versionMap.foldl (fun files entry => Function.update files (z.number entry.1) (some entry.2)) fun _ => none
  metadata :=
    { name := z.kmd.name
      purpose := z.kmd.purpose
      encrypted := z.kmd.encrypted
      versions := z.kmd.versions.map z.heap.object }

/-- A reader of what was written. -/
def readerOf (w : Written) (isEncryptedReader : Bool) : JsonReader where
  metadata := w.metadata
  getKey n :=
    match w.keyFile n with
    | some key => .ok key
    | none => .error (.keyczar (.fileError n))
  isEncryptedReader := isEncryptedReader

/-! ## Calls -/

/-- A call of one of the operations. -/
inductive Op where
  | addVersion (status : Option KeyStatus) (key : Option KeyczarKey)
  | addGeneratedVersion (status : Option KeyStatus) (generated : List (Except Exception KeyczarKey))
  | promote (versionNumber : Int)
  | demote (versionNumber : Int)
  | revoke (versionNumber : Int)

/-- What a call returns and the state it leaves; `none` when it does not return. -/
def step : Op → Option (Except Exception Unit × GenericKeyczar)
  | .addVersion status key => some (z.addVersion P status key)
  | .addGeneratedVersion status generated => z.addGeneratedVersion P status generated
  | .promote n => some (z.promote n)
  | .demote n => some (z.demote n)
  | .revoke n => some (z.revoke n)

end GenericKeyczar

end Java
