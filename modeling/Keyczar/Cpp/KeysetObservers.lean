import Keyczar.Cpp.KeysetHistory

/-!
# Key sets that are observed

The operations of `keyset.cc` with what they tell the observers, in the order in which they do. Without the observers they are the
operations there were.
-/

namespace Cpp

/-- What an observer is told. -/
inductive Notification where
  | updatedKeysetMetadata (metadata : KeysetMetadata)
  | newKey (key : Key) (versionNumber : Int)
  | revokedKey (versionNumber : Int)

/-- A key set, with what it has told its observers so far. -/
structure ObservedKeyset where
  keyset : ManagedKeyset
  notified : List Notification := []

namespace ObservedKeyset

variable (P : Primitives) (o : ObservedKeyset)

/-- All observers are told. -/
def notify (notification : Notification) : ObservedKeyset := { o with notified := o.notified ++ [notification] }

/-- `NotifyOnUpdatedKeysetMetadata` with the metadata of the key set. -/
def notifyOnUpdatedKeysetMetadata : ObservedKeyset := o.notify (.updatedKeysetMetadata o.keyset.metadata)

/-- `set_metadata`. -/
def setMetadata (metadata : KeysetMetadata) : ObservedKeyset :=
  { o with keyset := { o.keyset with metadata } }.notifyOnUpdatedKeysetMetadata

/-- `set_encrypted`. -/
def setEncrypted (encrypted : Bool) : ObservedKeyset :=
  { o with keyset := { o.keyset with metadata := { o.keyset.metadata with encrypted } } }.notifyOnUpdatedKeysetMetadata

/-- `set_key_status` on the version with a number. -/
def setKeyStatus (versionNumber : Int) (status : KeyStatus) : ObservedKeyset :=
  { o with keyset := o.keyset.setKeyStatus versionNumber status }

/-- `UpdateKeyStatus`. For the former primary version it calls itself with status ACTIVE. -/
def updateKeyStatus (newStatus : KeyStatus) (versionNumber : Int) : Bool × ObservedKeyset :=
  match newStatus with
  | .primary =>
    if o.keyset.primaryKeyVersionNumber ≠ 0 ∧ o.keyset.getPrimaryKeyVersion.isNone then (false, o)
    else
      let o :=
        if o.keyset.getPrimaryKeyVersion.isSome then
          (o.setKeyStatus o.keyset.primaryKeyVersionNumber .active).notifyOnUpdatedKeysetMetadata
        else o
      let o := { o with keyset := { o.keyset with primaryKeyVersionNumber := versionNumber } }
      (true, (o.setKeyStatus versionNumber .primary).notifyOnUpdatedKeysetMetadata)
  | .active => (true, (o.setKeyStatus versionNumber .active).notifyOnUpdatedKeysetMetadata)
  | .inactive => (true, (o.setKeyStatus versionNumber .inactive).notifyOnUpdatedKeysetMetadata)
  | .undefined => (false, o)

/-- `PromoteKey`. -/
def promoteKey (versionNumber : Int) : Bool × ObservedKeyset :=
  if versionNumber ≤ 0 then (false, o)
  else
    match o.keyset.metadata.getVersion versionNumber with
    | none => (false, o)
    | some keyVersion =>
      match keyVersion.keyStatus with
      | .primary => (false, o)
      | .active => o.updateKeyStatus .primary versionNumber
      | .inactive => o.updateKeyStatus .active versionNumber
      | .undefined => (false, o)

/-- `DemoteKey`. -/
def demoteKey (versionNumber : Int) : Bool × ObservedKeyset :=
  if versionNumber ≤ 0 then (false, o)
  else
    match o.keyset.metadata.getVersion versionNumber with
    | none => (false, o)
    | some keyVersion =>
      match keyVersion.keyStatus with
      | .primary =>
        let (updated, o) := o.updateKeyStatus .active versionNumber
        (true, if updated then { o with keyset := { o.keyset with primaryKeyVersionNumber := 0 } } else o)
      | .active => o.updateKeyStatus .inactive versionNumber
      | .inactive => (false, o)
      | .undefined => (false, o)

/-- `AddKey`. -/
def addKey (key : Key) (versionNumber : Int) : Except Exception Bool × ObservedKeyset :=
  match o.keyset.addKey P key versionNumber with
  | (.ok true, keyset) => (.ok true, { o with keyset }.notify (.newKey key versionNumber))
  | (result, keyset) => (result, { o with keyset })

/-- `RevokeKey`, with the version removed and told before the key is. -/
def revokeKey (versionNumber : Int) : Bool × ObservedKeyset :=
  if versionNumber ≤ 0 then (false, o)
  else
    match o.keyset.metadata.getVersion versionNumber with
    | none => (false, o)
    | some keyVersion =>
      if keyVersion.keyStatus ≠ .inactive then (false, o)
      else
        let metadata := (o.keyset.metadata.removeVersion versionNumber).2
        let o := { o with keyset := { o.keyset with metadata } }.notifyOnUpdatedKeysetMetadata
        let o := { o with keyset := (o.keyset.removeKey P versionNumber).2 }
        (true, o.notify (.revokedKey versionNumber))

/-- `AddKeyVersion`; `none` when a `CHECK` fails. -/
def addKeyVersion (keyVersion : KeyVersion) : Option (Int × ObservedKeyset) :=
  if keyVersion.versionNumber ≠ 0 then some (0, o)
  else
    match o.keyset.metadata.addVersion keyVersion with
    | none => none
    | some (false, _, metadata) => some (0, { o with keyset := { o.keyset with metadata } })
    | some (true, keyVersion, metadata) =>
      let o := { o with keyset := { o.keyset with metadata } }
      if keyVersion.keyStatus = .primary then
        match o.updateKeyStatus .primary keyVersion.versionNumber with
        | (true, o) => some (keyVersion.versionNumber, o.notifyOnUpdatedKeysetMetadata)
        | (false, _) => none
      else some (keyVersion.versionNumber, o.notifyOnUpdatedKeysetMetadata)

/-- The end of `GenerateKey` and `ImportPrivateKey`. -/
def addNewKey (status : KeyStatus) (key : Key) : Option (Except Exception Int × ObservedKeyset) :=
  let (demoted, o) :=
    if status = .primary ∧ 0 < o.keyset.primaryKeyVersionNumber then o.demoteKey o.keyset.primaryKeyVersionNumber else (true, o)
  if !demoted then some (.ok 0, o)
  else
    match o.addKeyVersion ⟨0, status, false⟩ with
    | none => none
    | some (versionNumber, o) =>
      if versionNumber = 0 then some (.ok 0, o)
      else
        match o.addKey P key versionNumber with
        | (.error e, o) => some (.error e, o)
        | (.ok false, o) => some (.ok 0, o)
        | (.ok true, o) => some (.ok versionNumber, o)

/-- `GenerateKey`; `none` when it does not return. -/
def generateKey (status : KeyStatus) (generated : List (Option Key)) : Option (Except Exception Int × ObservedKeyset) :=
  if o.keyset.metadata.keyType = .undefined then some (.ok 0, o)
  else
    match o.keyset.generateUnusedKey P generated with
    | none => none
    | some none => some (.ok 0, o)
    | some (some key) => o.addNewKey P status key

/-- `ImportPrivateKey` of the key that a file gives. -/
def importPrivateKey (status : KeyStatus) (imported : Option Key) : Option (Except Exception Int × ObservedKeyset) :=
  if o.keyset.metadata.keyType = .undefined then some (.ok 0, o)
  else
    match imported with
    | none => some (.ok 0, o)
    | some key =>
      match key.hash P with
      | none => some (.ok 0, o)
      | some hash => if (o.keyset.hashMap hash).isSome then some (.ok 0, o) else o.addNewKey P status key

/-- A call, which may throw, with what it leaves; `none` when it does not return. -/
def call : Call → Option (Except Exception Unit × ObservedKeyset)
  | .generateKey status generated => (o.generateKey P status generated).map fun r => (r.1.map fun _ => (), r.2)
  | .importPrivateKey status imported => (o.importPrivateKey P status imported).map fun r => (r.1.map fun _ => (), r.2)
  | .promoteKey n => some (.ok (), (o.promoteKey n).2)
  | .demoteKey n => some (.ok (), (o.demoteKey n).2)
  | .revokeKey n => some (.ok (), (o.revokeKey P n).2)

/-! ## Without the observers -/

variable {P o}

/-- What an operation answers, and the key set that it leaves. -/
def forget {α : Type} (r : α × ObservedKeyset) : α × ManagedKeyset := (r.1, r.2.keyset)

theorem forget_updateKeyStatus (o : ObservedKeyset) (status : KeyStatus) (n : Int) :
    forget (o.updateKeyStatus status n) = o.keyset.updateKeyStatus status n := by
  cases status with
  | primary =>
    unfold updateKeyStatus ManagedKeyset.updateKeyStatus
    dsimp only
    split
    · rfl
    · split <;> rfl
  | _ => rfl

theorem forget_promoteKey (o : ObservedKeyset) (n : Int) : forget (o.promoteKey n) = o.keyset.promoteKey n := by
  unfold promoteKey ManagedKeyset.promoteKey
  split
  · rfl
  · cases o.keyset.metadata.getVersion n with
    | none => rfl
    | some v =>
      dsimp only
      cases v.keyStatus with
      | active => exact o.forget_updateKeyStatus .primary n
      | inactive => exact o.forget_updateKeyStatus .active n
      | _ => rfl

theorem forget_demoteKey (o : ObservedKeyset) (n : Int) : forget (o.demoteKey n) = o.keyset.demoteKey n := by
  unfold demoteKey ManagedKeyset.demoteKey
  split
  · rfl
  · cases o.keyset.metadata.getVersion n with
    | none => rfl
    | some v =>
      dsimp only
      cases v.keyStatus with
      | active => exact o.forget_updateKeyStatus .inactive n
      | _ => rfl

theorem forget_addKey (o : ObservedKeyset) (key : Key) (n : Int) : forget (o.addKey P key n) = o.keyset.addKey P key n := by
  unfold addKey
  split
  · rename_i heq
    rw [heq]
    rfl
  · rename_i heq
    rw [heq]
    rfl

theorem forget_revokeKey (o : ObservedKeyset) (n : Int) : forget (o.revokeKey P n) = o.keyset.revokeKey P n := by
  unfold revokeKey ManagedKeyset.revokeKey
  split
  · rfl
  · cases o.keyset.metadata.getVersion n with
    | none => rfl
    | some v =>
      dsimp only
      split <;> rfl

theorem forget_addKeyVersion (o : ObservedKeyset) (v : KeyVersion) :
    (o.addKeyVersion v).map forget = o.keyset.addKeyVersion v := by
  unfold addKeyVersion ManagedKeyset.addKeyVersion
  split
  · rfl
  · cases o.keyset.metadata.addVersion v with
    | none => rfl
    | some p =>
      obtain ⟨added, v', m⟩ := p
      cases added with
      | false => rfl
      | true =>
        dsimp only
        split
        · rw [← forget_updateKeyStatus { o with keyset := { o.keyset with metadata := m } } .primary v'.versionNumber]
          obtain ⟨updated, t⟩ := updateKeyStatus { o with keyset := { o.keyset with metadata := m } } .primary v'.versionNumber
          cases updated <;> rfl
        · rfl

theorem forget_addNewKey (o : ObservedKeyset) (status : KeyStatus) (key : Key) :
    (o.addNewKey P status key).map forget = o.keyset.addNewKey P status key := by
  unfold addNewKey ManagedKeyset.addNewKey
  have hroom : forget (if status = .primary ∧ 0 < o.keyset.primaryKeyVersionNumber then
        o.demoteKey o.keyset.primaryKeyVersionNumber else (true, o)) =
      if status = .primary ∧ 0 < o.keyset.primaryKeyVersionNumber then
        o.keyset.demoteKey o.keyset.primaryKeyVersionNumber else (true, o.keyset) := by
    split
    · exact o.forget_demoteKey _
    · rfl
  rw [← hroom]
  generalize (if status = .primary ∧ 0 < o.keyset.primaryKeyVersionNumber then
    o.demoteKey o.keyset.primaryKeyVersionNumber else (true, o)) = room
  obtain ⟨demoted, t⟩ := room
  dsimp only [forget]
  split
  · rfl
  · rw [← t.forget_addKeyVersion]
    cases t.addKeyVersion ⟨0, status, false⟩ with
    | none => rfl
    | some p =>
      obtain ⟨n, u⟩ := p
      rw [Option.map_some]
      dsimp only [forget]
      split
      · rfl
      · rw [← u.forget_addKey]
        obtain ⟨result, w⟩ := u.addKey P key n
        cases result with
        | error e => rfl
        | ok added => cases added <;> rfl

theorem forget_generateKey (o : ObservedKeyset) (status : KeyStatus) (generated : List (Option Key)) :
    (o.generateKey P status generated).map forget = o.keyset.generateKey P status generated := by
  unfold generateKey ManagedKeyset.generateKey
  split
  · rfl
  · cases o.keyset.generateUnusedKey P generated with
    | none => rfl
    | some key =>
      cases key with
      | none => rfl
      | some key => exact o.forget_addNewKey status key

theorem forget_importPrivateKey (o : ObservedKeyset) (status : KeyStatus) (imported : Option Key) :
    (o.importPrivateKey P status imported).map forget = o.keyset.importPrivateKey P status imported := by
  unfold importPrivateKey ManagedKeyset.importPrivateKey
  split
  · rfl
  · cases imported with
    | none => rfl
    | some key =>
      dsimp only
      cases key.hash P with
      | none => rfl
      | some hash =>
        dsimp only
        split
        · rfl
        · exact o.forget_addNewKey status key

/-- What a call leaves is what it leaves of the key set. -/
theorem forget_call (o : ObservedKeyset) (c : Call) : (o.call P c).map (fun r => r.2.keyset) = o.keyset.call P c := by
  cases c with
  | generateKey status generated =>
    show ((o.generateKey P status generated).map _).map _ = (o.keyset.generateKey P status generated).map Prod.snd
    rw [← forget_generateKey, Option.map_map, Option.map_map]
    rfl
  | importPrivateKey status imported =>
    show ((o.importPrivateKey P status imported).map _).map _ = (o.keyset.importPrivateKey P status imported).map Prod.snd
    rw [← forget_importPrivateKey, Option.map_map, Option.map_map]
    rfl
  | promoteKey n => exact congrArg (fun r => some r.2) (o.forget_promoteKey n)
  | demoteKey n => exact congrArg (fun r => some r.2) (o.forget_demoteKey n)
  | revokeKey n => exact congrArg (fun r => some r.2) (o.forget_revokeKey n)

end ObservedKeyset

end Cpp
