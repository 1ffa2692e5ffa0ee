import Keyczar.Cpp.KeysetCounter
import Keyczar.Cpp.KeysetFiles
import Keyczar.Lib.Interrupted

/-!
# What is written of a key set

Between two notifications of an operation a directory has all of a key set, or it has a version whose key was not yet written.
-/

namespace Cpp

open Interrupted

/-! ## Metadata that can be read again -/

namespace KeysetMetadata

/-- Metadata that is read from its text as it is. -/
structure Recordable (m : KeysetMetadata) : Prop where
  numbered : Numbered m
  writable : Writable m
  ints : Ints m
  std : IsStd m.name
  utf8 : isStringUTF8 (asciiString m.name) = true

variable {m : KeysetMetadata}

/-- A change of the versions, and of the next number, to others that can be read again. -/
theorem Recordable.congr (h : Recordable m) {m' : KeysetMetadata} (hname : m'.name = m.name) (htype : m'.keyType = m.keyType)
    (hpurpose : m'.keyPurpose = m.keyPurpose) (hpos : 0 < m'.nextKeyVersionNumber) (hnext : InIntRange m'.nextKeyVersionNumber)
    (hversions : ∀ {n v}, m'.getVersion n = some v → v.versionNumber = n ∧ 0 < n ∧ InIntRange n ∧ v.keyStatus ≠ .undefined) :
    Recordable m' := by
  refine ⟨?_, ⟨?_, ?_, hpos, fun hv => (hversions hv).2.2.2⟩, ⟨hnext, ?_⟩, ?_, ?_⟩
  · intro n v hv
    exact ⟨(hversions hv).1, (hversions hv).2.1⟩
  · rw [htype]
    exact h.writable.keyType
  · rw [hpurpose]
    exact h.writable.keyPurpose
  · intro n v hv
    rw [(hversions hv).1]
    exact (hversions hv).2.2.1
  · rw [hname]
    exact h.std
  · rw [hname]
    exact h.utf8

theorem Recordable.version (h : Recordable m) {n : Int} {v : KeyVersion} (hv : m.getVersion n = some v) :
    v.versionNumber = n ∧ 0 < n ∧ InIntRange n ∧ v.keyStatus ≠ .undefined := by
  obtain ⟨heq, hpos⟩ := h.numbered n v hv
  have hint := h.ints.versions hv
  rw [heq] at hint
  exact ⟨heq, hpos, hint, h.writable.keyStatus hv⟩

theorem Recordable.setKeyStatus (h : Recordable m) (n : Int) {status : KeyStatus} (hst : status ≠ .undefined) :
    Recordable (m.setKeyStatus n status) := by
  have hsame : ∀ {α : Type} (f : KeysetMetadata → α), (∀ m' : OrderedMap Int KeyVersion, f { m with keyVersionsMap := m' } = f m) →
      f (m.setKeyStatus n status) = f m := by
    intro α f hf
    unfold KeysetMetadata.setKeyStatus
    split
    · rfl
    · exact hf _
  refine h.congr (hsame _ fun _ => rfl) (hsame _ fun _ => rfl) (hsame _ fun _ => rfl) ?_ ?_ ?_
  · rw [nextKeyVersionNumber_setKeyStatus]
    exact h.writable.next_pos
  · rw [nextKeyVersionNumber_setKeyStatus]
    exact h.ints.next
  · intro n' v hv
    rw [getVersion_setKeyStatus] at hv
    split at hv
    · rename_i heq
      obtain ⟨w, hw, rfl⟩ := Option.map_eq_some_iff.mp hv
      obtain ⟨hnumber, hpos, hint, -⟩ := h.version hw
      rw [heq]
      exact ⟨hnumber, hpos, hint, hst⟩
    · exact h.version hv

theorem Recordable.removeVersion (h : Recordable m) (n : Int) : Recordable (m.removeVersion n).2 := by
  have hsame : ∀ {α : Type} (f : KeysetMetadata → α), (∀ m' : OrderedMap Int KeyVersion, f { m with keyVersionsMap := m' } = f m) →
      f (m.removeVersion n).2 = f m := by
    intro α f hf
    unfold KeysetMetadata.removeVersion
    split
    · exact hf _
    · rfl
  refine h.congr (hsame _ fun _ => rfl) (hsame _ fun _ => rfl) (hsame _ fun _ => rfl) ?_ ?_ ?_
  · rw [nextKeyVersionNumber_removeVersion]
    exact h.writable.next_pos
  · rw [nextKeyVersionNumber_removeVersion]
    exact h.ints.next
  · intro n' v hv
    rw [getVersion_removeVersion] at hv
    split at hv
    · cases hv
    · exact h.version hv

theorem Recordable.withVersion (h : Recordable m) (hbound : m.nextKeyVersionNumber + 1 < 2 ^ 31) {status : KeyStatus}
    (hst : status ≠ .undefined) : Recordable (ManagedKeyset.withVersion m status) := by
  have hpos := h.writable.next_pos
  refine h.congr rfl rfl rfl ?_ ?_ ?_
  · show 0 < m.nextKeyVersionNumber + 1
    omega
  · show -2 ^ 31 ≤ m.nextKeyVersionNumber + 1 ∧ m.nextKeyVersionNumber + 1 < 2 ^ 31
    omega
  · intro n v hv
    rw [ManagedKeyset.getVersion_withVersion] at hv
    split at hv
    · rename_i heq
      cases hv
      exact ⟨heq.symm, heq ▸ hpos, heq ▸ h.ints.next, hst⟩
    · exact h.version hv

end KeysetMetadata

/-! ## Writing files -/

namespace Files

open KeysetMetadata

variable {A : AsymmetricKeys} {P : Primitives} {files : Files}

/-- The directory with other metadata. -/
def withMetadata (files : Files) (m : KeysetMetadata) : Files := files.writeJSONFile metadataBasename (json (m.toValue false))

theorem told_metadata {m : KeysetMetadata} (h : Recordable m) (files : Files) :
    files.told A (.updatedKeysetMetadata m) = some (files.withMetadata m) := by
  show files.onUpdatedKeysetMetadata m = _
  unfold onUpdatedKeysetMetadata
  rw [(toJson_eq_some_some_iff m false _).mpr ⟨h.writable.named, rfl⟩]
  rfl

theorem readMetadata_withMetadata {m : KeysetMetadata} (h : Recordable m) (files : Files) :
    (files.withMetadata m).readMetadata = some (some m) := by
  unfold readMetadata withMetadata writeJSONFile
  rw [Function.update_self]
  dsimp only
  rw [ofText_write h.ints h.std, if_pos h.utf8, createFromValue_toValue h.numbered h.writable]

/-- The name of a key's file is a number. -/
theorem intToString_ne_metadataBasename (n : Int) : intToString n ≠ metadataBasename := by
  intro heq
  have hdigit : ∀ c ∈ Decimal.encode n.natAbs, Decimal.isDigit c = true := fun c hc => Decimal.isDigit_of_mem_encode hc
  have hmem : (109 : UInt8) ∈ intToString n := by
    rw [heq]
    decide
  unfold intToString Decimal.encodeInt at hmem
  split at hmem
  · rcases List.mem_cons.mp hmem with h | h
    · cases h
    · cases hdigit _ h
  · cases hdigit _ hmem

theorem intToString_inj {n n' : Int} (hn : InIntRange n) (hn' : InIntRange n') (h : intToString n = intToString n') : n = n' := by
  rw [← strto32_intToString hn, h, strto32_intToString hn']

theorem withMetadata_intToString (files : Files) (m : KeysetMetadata) (n : Int) :
    files.withMetadata m (intToString n) = files (intToString n) :=
  Function.update_of_ne (intToString_ne_metadataBasename n) _ _

theorem readKey_withMetadata (files : Files) (m : KeysetMetadata) (t : KeyType) (n : Int) :
    (files.withMetadata m).readKey A t n = files.readKey A t n := by
  unfold readKey
  rw [withMetadata_intToString]

theorem withMetadata_idem (files : Files) (m : KeysetMetadata) : (files.withMetadata m).withMetadata m = files.withMetadata m :=
  Function.update_idem _ _ _

/-- The files of keys that a directory has, another has as well. -/
def Extends (files files' : Files) : Prop :=
  ∀ n text, InIntRange n → files (intToString n) = some text → files' (intToString n) = some text

/-- No version from a number on has a file. -/
def FreeFrom (files : Files) (n : Int) : Prop := ∀ n', InIntRange n' → n ≤ n' → files (intToString n') = none

theorem extends_refl (files : Files) : Extends files files := fun _ _ _ h => h

theorem Extends.withMetadata {files₀ : Files} (h : Extends files₀ files) (m : KeysetMetadata) : Extends files₀ (files.withMetadata m) := by
  intro n text hn htext
  rw [withMetadata_intToString]
  exact h n text hn htext

theorem FreeFrom.withMetadata {n : Int} (h : FreeFrom files n) (m : KeysetMetadata) : FreeFrom (files.withMetadata m) n := by
  intro n' hn' hle
  rw [withMetadata_intToString]
  exact h n' hn' hle

theorem Recorded.withMetadata {m m' : KeysetMetadata} {getKey : Int → Option Key} (h : Recorded A files m getKey) (hm' : Recordable m')
    (htype : m'.keyType = m.keyType) : Recorded A (files.withMetadata m') m' getKey := by
  refine ⟨readMetadata_withMetadata hm' files, ?_⟩
  intro n key hk
  rw [readKey_withMetadata, htype]
  exact h.keys hk

end Files

namespace ManagedKeyset

variable {A : AsymmetricKeys} {P : Primitives}

/-- The keys that were written: all but one, if one is missing. -/
def written (s : ManagedKeyset) (missing : Option Int) (n : Int) : Option Key := if missing = some n then none else s.getKey n

/-- A directory has a key set that can be read again, but for a key that is missing if one is, and no keys of later versions. -/
structure Saved (A : AsymmetricKeys) (P : Primitives) (files : Files) (missing : Option Int) (s : ManagedKeyset) : Prop where
  consistent : Consistent P s
  hashable : ∀ {n key}, s.written missing n = some key → ∃ hash, key.buggyHash P = .ok hash
  recordable : s.metadata.Recordable
  recorded : files.Recorded A s.metadata (s.written missing)
  absent : ∀ {n}, missing = some n → files (intToString n) = none
  free : files.FreeFrom s.metadata.nextKeyVersionNumber

/-- What a directory is when the work on it stops: it has a key set, but for one key perhaps, and all files of keys that it had. -/
structure Stopped (A : AsymmetricKeys) (P : Primitives) (files₀ files : Files) : Prop where
  saved : ∃ missing s, Saved A P files missing s
  extends_ : files₀.Extends files

/-- After the notifications a directory has a key set, and wherever the work had stopped, it had one. -/
def Wrote (A : AsymmetricKeys) (P : Primitives) (files₀ : Files) (missing : Option Int) (notified : List Notification)
    (s : ManagedKeyset) : Prop :=
  ∃ files, Trail (Files.told A) (Stopped A P files₀) files₀ notified files ∧ Saved A P files missing s

theorem SameKeys.symm {s t : ManagedKeyset} (h : SameKeys s t) : SameKeys t s :=
  ⟨h.versionNumberMap_eq.symm, h.hashMap_eq.symm, h.next_eq.symm, h.keyType_eq.symm, fun n => (h.isSome_getVersion n).symm⟩

theorem SameKeys.getKey {s t : ManagedKeyset} (h : SameKeys s t) (n : Int) : t.getKey n = s.getKey n :=
  congrArg (fun m => m.find n) h.versionNumberMap_eq

theorem SameKeys.written {s t : ManagedKeyset} (h : SameKeys s t) (missing : Option Int) : t.written missing = s.written missing := by
  funext n
  unfold ManagedKeyset.written
  rw [h.getKey]

theorem Saved.withMetadata {files : Files} {missing : Option Int} {s s' : ManagedKeyset} (h : Saved A P files missing s)
    (hsame : SameKeys s s') (hc : Consistent P s') (hm : s'.metadata.Recordable) :
    Saved A P (files.withMetadata s'.metadata) missing s' := by
  have hwritten := hsame.written missing
  refine ⟨hc, ?_, hm, ?_, ?_, ?_⟩
  · rw [hwritten]
    exact h.hashable
  · rw [hwritten]
    exact h.recorded.withMetadata hm hsame.keyType_eq
  · intro n hn
    rw [Files.withMetadata_intToString]
    exact h.absent hn
  · rw [hsame.next_eq]
    exact h.free.withMetadata _

variable {files₀ : Files} {missing : Option Int} {o : ObservedKeyset}

theorem wrote_nil {s : ManagedKeyset} (h : Saved A P files₀ missing s) : Wrote A P files₀ missing [] s :=
  ⟨files₀, .start ⟨⟨missing, s, h⟩, files₀.extends_refl⟩, h⟩

/-- The writer is told of other statuses. -/
theorem Wrote.updated {ns : List Notification} {s s' : ManagedKeyset} (h : Wrote A P files₀ missing ns s) (hsame : SameKeys s s')
    (hc : Consistent P s') (hm : s'.metadata.Recordable) :
    Wrote A P files₀ missing (ns ++ [.updatedKeysetMetadata s'.metadata]) s' := by
  obtain ⟨files, htrail, hsaved⟩ := h
  have hsaved' := hsaved.withMetadata hsame hc hm
  exact ⟨_, htrail.tell (Files.told_metadata hm files) ⟨⟨_, s', hsaved'⟩, htrail.holds.extends_.withMetadata _⟩, hsaved'⟩

/-- The primary version of a consistent key set is demoted to an active one. -/
theorem Consistent.demoteKey_primary {s : ManagedKeyset} (h : Consistent P s) (hp : s.getPrimaryKeyVersion.isSome) :
    s.demoteKey s.primaryKeyVersionNumber =
      (true, { s.setKeyStatus s.primaryKeyVersionNumber .active with primaryKeyVersionNumber := 0 }) := by
  rcases h.statuses.getPrimaryKeyVersion with ⟨-, hnone⟩ | ⟨-, v, hv, hst⟩
  · rw [hnone] at hp
    cases hp
  · have hpos := h.statuses.positive hv
    unfold getPrimaryKeyVersion at hv
    unfold ManagedKeyset.demoteKey
    rw [if_neg (not_le.mpr hpos), hv]
    dsimp only
    rw [hst]
    rfl

/-- A version is made primary, and the one that was is not. -/
theorem Wrote.makePrimary (h : Wrote A P files₀ missing o.notified o.keyset) (n : Int)
    (hc : Consistent P (o.updateKeyStatus .primary n).2.keyset) :
    Wrote A P files₀ missing (o.updateKeyStatus .primary n).2.notified (o.updateKeyStatus .primary n).2.keyset := by
  obtain ⟨_, _, hs⟩ := id h
  have hsame : SameKeys o.keyset (o.updateKeyStatus .primary n).2.keyset := by
    have := sameKeys_updateKeyStatus o.keyset .primary n
    rwa [← ObservedKeyset.forget_updateKeyStatus] at this
  unfold ObservedKeyset.updateKeyStatus at hc hsame ⊢
  dsimp only at hc hsame ⊢
  split
  · exact h
  · rename_i hcond
    rw [if_neg hcond] at hc hsame
    by_cases hp : o.keyset.getPrimaryKeyVersion.isSome
    · rw [if_pos hp] at hc hsame ⊢
      have hdemoted := hs.consistent.demoteKey o.keyset.primaryKeyVersionNumber
      have hkeys := sameKeys_demoteKey o.keyset o.keyset.primaryKeyVersionNumber
      rw [hs.consistent.demoteKey_primary hp] at hdemoted hkeys
      have hm := hs.recordable.setKeyStatus o.keyset.primaryKeyVersionNumber (show KeyStatus.active ≠ .undefined by decide)
      exact (h.updated hkeys hdemoted hm).updated (hkeys.symm.trans hsame) hc (hm.setKeyStatus n (by decide))
    · rw [if_neg hp] at hc hsame ⊢
      exact h.updated hsame hc (hs.recordable.setKeyStatus n (by decide))

/-! ## The operations -/

theorem Wrote.promoteKey (h : Wrote A P files₀ missing o.notified o.keyset) (n : Int) :
    Wrote A P files₀ missing (o.promoteKey n).2.notified (o.promoteKey n).2.keyset := by
  obtain ⟨_, _, hs⟩ := id h
  have hc := hs.consistent.promoteKey n
  have hsame := sameKeys_promoteKey o.keyset n
  rw [← ObservedKeyset.forget_promoteKey] at hc hsame
  dsimp only [ObservedKeyset.forget] at hc hsame
  unfold ObservedKeyset.promoteKey at hc hsame ⊢
  split
  · exact h
  · rename_i hpos
    rw [if_neg hpos] at hc hsame
    cases hv : o.keyset.metadata.getVersion n with
    | none => exact h
    | some v =>
      rw [hv] at hc hsame
      dsimp only at hc hsame ⊢
      cases hst : v.keyStatus with
      | active =>
        rw [hst] at hc
        exact h.makePrimary n hc
      | inactive =>
        rw [hst] at hc hsame
        exact h.updated hsame hc (hs.recordable.setKeyStatus n (by decide))
      | _ => exact h

theorem Wrote.demoteKey (h : Wrote A P files₀ missing o.notified o.keyset) (n : Int) :
    Wrote A P files₀ missing (o.demoteKey n).2.notified (o.demoteKey n).2.keyset := by
  obtain ⟨_, _, hs⟩ := id h
  have hc := hs.consistent.demoteKey n
  have hsame := sameKeys_demoteKey o.keyset n
  rw [← ObservedKeyset.forget_demoteKey] at hc hsame
  dsimp only [ObservedKeyset.forget] at hc hsame
  unfold ObservedKeyset.demoteKey at hc hsame ⊢
  split
  · exact h
  · rename_i hpos
    rw [if_neg hpos] at hc hsame
    cases hv : o.keyset.metadata.getVersion n with
    | none => exact h
    | some v =>
      rw [hv] at hc hsame
      dsimp only at hc hsame ⊢
      cases hst : v.keyStatus with
      | primary =>
        rw [hst] at hc hsame
        exact h.updated hsame hc (hs.recordable.setKeyStatus n (by decide))
      | active =>
        rw [hst] at hc hsame
        exact h.updated hsame hc (hs.recordable.setKeyStatus n (by decide))
      | _ => exact h

/-- Without a version, the directory has what the key set still has. -/
theorem Saved.withoutVersion {files : Files} {s s' : ManagedKeyset} (h : Saved A P files missing s) (hc : Consistent P s') {n : Int}
    (hmetadata : s'.metadata = (s.metadata.removeVersion n).2) (hkeys : ∀ {n key}, s'.getKey n = some key → s.getKey n = some key) :
    Saved A P (files.withMetadata (s.metadata.removeVersion n).2) missing s' := by
  have hm := h.recordable.removeVersion n
  have htype : (s.metadata.removeVersion n).2.keyType = s.metadata.keyType := by
    unfold KeysetMetadata.removeVersion
    split <;> rfl
  have hwritten : ∀ {n key}, s'.written missing n = some key → s.written missing n = some key := by
    intro n key hk
    unfold ManagedKeyset.written at hk ⊢
    split at hk
    · cases hk
    · rename_i hne
      rw [if_neg hne]
      exact hkeys hk
  obtain ⟨hread, hold⟩ := h.recorded.withMetadata hm htype
  rw [← hmetadata] at hm hread hold
  refine ⟨hc, fun hk => h.hashable (hwritten hk), hm, ⟨?_, fun hk => ?_⟩, fun hn => ?_, ?_⟩
  · rw [← hmetadata]
    exact hread
  · rw [← hmetadata]
    exact hold (hwritten hk)
  · rw [Files.withMetadata_intToString]
    exact h.absent hn
  · rw [hmetadata, KeysetMetadata.nextKeyVersionNumber_removeVersion]
    exact h.free.withMetadata _

theorem getKey_of_removeKey {s : ManagedKeyset} {n n' : Int} {key : Key} (h : (s.removeKey P n).2.getKey n' = some key) :
    s.getKey n' = some key := by
  unfold ManagedKeyset.removeKey at h
  split at h
  · exact h
  · split at h
    · exact h
    · split at h
      · exact h
      · rename_i hash _ _
        have hget := (s.getKey_withoutKey n n' hash).symm.trans h
        split at hget
        · cases hget
        · exact hget

theorem Wrote.revokeKey (h : Wrote A P files₀ missing o.notified o.keyset) (n : Int) :
    Wrote A P files₀ missing (o.revokeKey P n).2.notified (o.revokeKey P n).2.keyset := by
  obtain ⟨files, htrail, hs⟩ := id h
  have hc := hs.consistent.revokeKey n
  rw [← ObservedKeyset.forget_revokeKey] at hc
  dsimp only [ObservedKeyset.forget] at hc
  unfold ObservedKeyset.revokeKey at hc ⊢
  split
  · exact h
  · rename_i hpos
    rw [if_neg hpos] at hc
    cases hv : o.keyset.metadata.getVersion n with
    | none => exact h
    | some v =>
      rw [hv] at hc
      dsimp only at hc ⊢
      split
      · exact h
      · rename_i hst
        rw [if_neg hst] at hc
        have hsaved := hs.withoutVersion hc (metadata_removeKey _ n) fun hk =>
          getKey_of_removeKey (s := { o.keyset with metadata := (o.keyset.metadata.removeVersion n).2 }) hk
        have hstopped : Stopped A P files₀ _ := ⟨⟨_, _, hsaved⟩, htrail.holds.extends_.withMetadata _⟩
        exact ⟨_, (htrail.tell (Files.told_metadata (hs.recordable.removeVersion n) files) hstopped).tell rfl hstopped, hsaved⟩

/-! ## New keys -/

end ManagedKeyset

/-- A key of a type has a text that it is read from as it is. -/
def Key.Stored (A : AsymmetricKeys) (keyType : KeyType) (key : Key) : Prop :=
  ∃ value, key.toJson A = some value ∧ Storable value ∧ Key.ofValue A keyType value = some key

namespace Files

variable {A : AsymmetricKeys}

/-- A new key has its file, and nothing else has changed. -/
theorem onNewKey_spec (files : Files) {keyType : KeyType} {key : Key} (h : key.Stored A keyType) {n : Int} (hn : InIntRange n) :
    (files.onNewKey A key n).readKey A keyType n = some key ∧ (files.onNewKey A key n).readMetadata = files.readMetadata ∧
    ∀ n', InIntRange n' → n' ≠ n → files.onNewKey A key n (intToString n') = files (intToString n') := by
  obtain ⟨value, hvalue, hstorable, hread⟩ := h
  unfold onNewKey writeJSONFile
  rw [hvalue]
  dsimp only
  refine ⟨?_, ?_, ?_⟩
  · unfold readKey
    rw [Function.update_self]
    exact (Key.ofText_write A hstorable keyType true).trans hread
  · unfold readMetadata
    rw [Function.update_of_ne (intToString_ne_metadataBasename n).symm]
  · intro n' hn' hne
    exact Function.update_of_ne (fun heq => hne (intToString_inj hn' hn heq)) _ _

end Files

namespace ManagedKeyset

variable {A : AsymmetricKeys} {P : Primitives} {files₀ : Files} {o : ObservedKeyset}

/-- A version is made primary where none is. -/
theorem updateKeyStatus_of_none (hzero : o.keyset.primaryKeyVersionNumber = 0) (hnone : o.keyset.getPrimaryKeyVersion = none) (n : Int) :
    o.updateKeyStatus .primary n = (true, ({ o with keyset := { o.keyset with primaryKeyVersionNumber := n } }.setKeyStatus n
      .primary).notifyOnUpdatedKeysetMetadata) := by
  unfold ObservedKeyset.updateKeyStatus
  dsimp only
  rw [if_neg fun hcond => hcond.1 hzero, hnone]
  rfl

/-- Adding a version tells of the metadata that has it, once or twice. -/
theorem Consistent.addKeyVersion_notified (h : Consistent P o.keyset) (hbound : o.keyset.metadata.nextKeyVersionNumber + 1 < 2 ^ 31)
    {status : KeyStatus} (hroom : status = .primary → o.keyset.primaryKeyVersionNumber = 0) :
    ∃ u ms, o.addKeyVersion ⟨0, status, false⟩ = some (o.keyset.metadata.nextKeyVersionNumber, ⟨u, o.notified ++ ms⟩) ∧
      WithVersion o.keyset u status ∧
      (ms = [.updatedKeysetMetadata u.metadata] ∨ ms = [.updatedKeysetMetadata u.metadata, .updatedKeysetMetadata u.metadata]) ∧
      (o.keyset.metadata.Recordable → status ≠ .undefined → u.metadata.Recordable) := by
  have hadd : o.keyset.metadata.addVersion ⟨0, status, false⟩ = some (true, ⟨o.keyset.metadata.nextKeyVersionNumber, status, false⟩,
      withVersion o.keyset.metadata status) := by
    have hnew := addVersion_new h.next_pos h.getVersion_next status
    rw [toInt_add_one h.next_pos hbound] at hnew
    exact hnew
  by_cases hst : status = .primary
  · subst hst
    have hzero := hroom rfl
    have hnone : ({ o.keyset with metadata := withVersion o.keyset.metadata .primary } : ManagedKeyset).getPrimaryKeyVersion = none := by
      have hne : o.keyset.primaryKeyVersionNumber ≠ o.keyset.metadata.nextKeyVersionNumber := by
        have := h.next_pos
        omega
      show (withVersion o.keyset.metadata .primary).getVersion o.keyset.primaryKeyVersionNumber = none
      rw [getVersion_withVersion, if_neg hne]
      rcases h.statuses.getPrimaryKeyVersion with ⟨-, hp⟩ | ⟨hp, -⟩
      · exact hp
      · exact absurd hzero hp
    refine ⟨_, _, ?_, withVersion_primary h.next_pos hzero, Or.inr rfl, ?_⟩
    · unfold ObservedKeyset.addKeyVersion
      rw [if_neg (not_not_intro rfl), hadd]
      dsimp only
      rw [if_pos rfl, updateKeyStatus_of_none (o := { o with keyset := { o.keyset with
        metadata := withVersion o.keyset.metadata .primary } }) hzero hnone]
      dsimp only [ObservedKeyset.notifyOnUpdatedKeysetMetadata, ObservedKeyset.notify, ObservedKeyset.setKeyStatus]
      rw [List.append_assoc]
      rfl
    · intro hm hst
      exact (hm.withVersion hbound hst).setKeyStatus _ hst
  · refine ⟨_, _, ?_, withVersion_secondary o.keyset hst, Or.inl rfl, fun hm hst => hm.withVersion hbound hst⟩
    unfold ObservedKeyset.addKeyVersion
    rw [if_neg (not_not_intro rfl), hadd]
    dsimp only
    rw [if_neg hst]
    rfl

section NewKey

variable {files : Files} {s u : ManagedKeyset} {status : KeyStatus} {key : Key} {hash : Bytes}

theorem getKey_withVersion (hversion : WithVersion s u status) (n : Int) :
    (u.withKey P key s.metadata.nextKeyVersionNumber hash).getKey n =
      if n = s.metadata.nextKeyVersionNumber then some key else s.getKey n := by
  rw [getKey_withKey]
  unfold getKey
  rw [hversion.versionNumberMap_eq]

/-- With the metadata that has the new version, but not yet its key, a directory has the new key set but for that key. -/
theorem Saved.withVersion (h : Saved A P files none s) (hversion : WithVersion s u status) (hm : u.metadata.Recordable)
    (hhash : key.hash P = some hash) (hfree : s.hashMap hash = none) :
    Saved A P (files.withMetadata u.metadata) (some s.metadata.nextKeyVersionNumber)
      (u.withKey P key s.metadata.nextKeyVersionNumber hash) := by
  have hrecorded := h.recorded.withMetadata hm hversion.keyType_eq
  have hold : ∀ {n key'}, (u.withKey P key s.metadata.nextKeyVersionNumber hash).written (some s.metadata.nextKeyVersionNumber) n =
      some key' → s.getKey n = some key' := by
    intro n key' hk
    unfold ManagedKeyset.written at hk
    split at hk
    · cases hk
    · rename_i hne
      rwa [getKey_withVersion hversion, if_neg fun heq => hne (congrArg some heq.symm)] at hk
  refine ⟨h.consistent.withKey hversion hhash hfree, fun hk => h.hashable (hold hk), hm,
    ⟨hrecorded.metadata, fun hk => hrecorded.keys (hold hk)⟩, ?_, ?_⟩
  · rintro n ⟨⟩
    rw [Files.withMetadata_intToString]
    exact h.free _ h.recordable.ints.next (Int.le_refl _)
  · intro n hn hle
    have hle' : s.metadata.nextKeyVersionNumber + 1 ≤ n := by
      rw [← hversion.next_eq]
      exact hle
    rw [Files.withMetadata_intToString]
    exact h.free n hn (by omega)

/-- When the missing key is written the directory has all of the key set, and its other keys are as they were. -/
theorem Saved.onNewKey {n : Int} (h : Saved A P files (some n) s) (hkey : s.getKey n = some key)
    (hstored : key.Stored A s.metadata.keyType) {buggyHash : Option Bytes} (hbuggy : key.buggyHash P = .ok buggyHash) :
    Saved A P (files.onNewKey A key n) none s ∧ files.Extends (files.onNewKey A key n) := by
  have hrange : ∀ {n key}, s.getKey n = some key → InIntRange n ∧ n < s.metadata.nextKeyVersionNumber := by
    intro n key hk
    have hsome := h.consistent.keys n
    rw [hk] at hsome
    obtain ⟨v, hv⟩ := Option.isSome_iff_exists.mp hsome.symm
    refine ⟨(h.recordable.version hv).2.2.1, h.consistent.statuses.sound.lt_next n ?_⟩
    rw [status_lifecycle_of_getVersion hv]
    exact nofun
  obtain ⟨hn, hlt⟩ := hrange hkey
  obtain ⟨hread, hmetadata, hother⟩ := files.onNewKey_spec hstored hn
  have hwritten : ∀ {n' key'}, n' ≠ n → s.getKey n' = some key' → s.written (some n) n' = some key' := by
    intro n' key' hne hk
    unfold ManagedKeyset.written
    rw [if_neg fun heq => hne (Option.some.inj heq).symm, hk]
  refine ⟨⟨h.consistent, ?_, h.recordable, ⟨hmetadata.trans h.recorded.metadata, ?_⟩, nofun, ?_⟩, ?_⟩
  · intro n' key' hk
    by_cases hne : n' = n
    · rw [hne, show s.written none n = some key from hkey] at hk
      cases hk
      exact ⟨buggyHash, hbuggy⟩
    · exact h.hashable (hwritten hne hk)
  · intro n' key' hk
    by_cases hne : n' = n
    · rw [hne, show s.written none n = some key from hkey] at hk
      cases hk
      rw [hne]
      exact hread
    · unfold Files.readKey
      rw [hother n' (hrange hk).1 hne]
      exact h.recorded.keys (hwritten hne hk)
  · intro n' hn' hle
    rw [hother n' hn' (by omega)]
    exact h.free n' hn' hle
  · intro n' text hn' htext
    rw [hother n' hn']
    · exact htext
    · rintro rfl
      rw [h.absent rfl] at htext
      cases htext

end NewKey

/-- The primary version makes room, and the directory has the key set that it makes it in. -/
theorem Wrote.makeRoom (h : Wrote A P files₀ missing o.notified o.keyset) (status : KeyStatus) :
    ∃ t, (if status = .primary ∧ 0 < o.keyset.primaryKeyVersionNumber then o.demoteKey o.keyset.primaryKeyVersionNumber else (true, o)) =
        (true, t) ∧ Wrote A P files₀ missing t.notified t.keyset ∧ SameKeys o.keyset t.keyset ∧
      (status = .primary → t.keyset.primaryKeyVersionNumber = 0) := by
  obtain ⟨_, _, hs⟩ := id h
  obtain ⟨t, hroom, -, hsame, -, hzero⟩ := hs.consistent.makeRoom status
  by_cases hcond : status = .primary ∧ 0 < o.keyset.primaryKeyVersionNumber
  · rw [if_pos hcond, ← ObservedKeyset.forget_demoteKey] at hroom
    have hdemoted := h.demoteKey o.keyset.primaryKeyVersionNumber
    rw [if_pos hcond]
    generalize o.demoteKey o.keyset.primaryKeyVersionNumber = r at hroom hdemoted
    obtain ⟨demoted, t'⟩ := r
    cases hroom
    exact ⟨t', rfl, hdemoted, hsame, hzero⟩
  · rw [if_neg hcond] at hroom ⊢
    cases hroom
    exact ⟨o, rfl, h, hsame, hzero⟩

/-- A new key: wherever the work on it had stopped the directory has a key set, and when it did not throw the directory has the key. -/
theorem Wrote.addNewKey (h : Wrote A P files₀ none o.notified o.keyset) (hbound : o.keyset.metadata.nextKeyVersionNumber + 1 < 2 ^ 31)
    {status : KeyStatus} (hst : status ≠ .undefined) {key : Key} (hkey : key.Stored A o.keyset.metadata.keyType) {hash : Bytes}
    (hhash : key.hash P = some hash) (hfree : o.keyset.hashMap hash = none) {result : Except Exception Int} {o' : ObservedKeyset}
    (hadd : o.addNewKey P status key = some (result, o')) :
    (∃ files, Trail (Files.told A) (Stopped A P files₀) files₀ o'.notified files) ∧
      ∀ n, result = .ok n → Wrote A P files₀ none o'.notified o'.keyset := by
  obtain ⟨t, hroom, ⟨files, htrail, hs⟩, hsame, hzero⟩ := h.makeRoom status
  rw [← hsame.next_eq] at hbound
  rw [← hsame.keyType_eq] at hkey
  rw [← hsame.hashMap_eq] at hfree
  obtain ⟨u, ms, hversionadd, hversion, hms, hm⟩ := hs.consistent.addKeyVersion_notified hbound hzero
  have hm := hm hs.recordable hst
  have hwithVersion := hs.withVersion hversion hm hhash hfree
  have hstopped : Stopped A P files₀ (files.withMetadata u.metadata) := ⟨⟨_, _, hwithVersion⟩, htrail.holds.extends_.withMetadata _⟩
  have htrail' : Trail (Files.told A) (Stopped A P files₀) files₀ (t.notified ++ ms) (files.withMetadata u.metadata) := by
    have htold := htrail.tell (Files.told_metadata hm files) hstopped
    rcases hms with rfl | rfl
    · exact htold
    · have htwice := Files.told_metadata (A := A) hm (files.withMetadata u.metadata)
      rw [Files.withMetadata_idem] at htwice
      have := htold.tell htwice hstopped
      rwa [List.append_assoc] at this
  have hsome : (u.metadata.getVersion t.keyset.metadata.nextKeyVersionNumber).isSome := by
    rw [hversion.isSome_getVersion, decide_eq_true rfl, Bool.true_or]
  have hnew : u.getKey t.keyset.metadata.nextKeyVersionNumber = none := by
    unfold getKey
    rw [hversion.versionNumberMap_eq]
    exact hs.consistent.getKey_next
  have hkeyadd := addKey_of_free (P := P) hs.consistent.next_pos hsome hnew hhash (by rw [hversion.hashMap_eq]; exact hfree)
  unfold ObservedKeyset.addNewKey at hadd
  rw [hroom] at hadd
  dsimp only at hadd
  rw [if_neg (by decide), hversionadd] at hadd
  dsimp only at hadd
  rw [if_neg (Int.ne_of_gt hs.consistent.next_pos)] at hadd
  unfold ObservedKeyset.addKey at hadd
  dsimp only at hadd
  rw [hkeyadd] at hadd
  cases hbuggy : key.buggyHash P with
  | error e =>
    rw [hbuggy] at hadd
    cases hadd
    exact ⟨⟨_, htrail'⟩, fun n hn => nomatch hn⟩
  | ok buggyHash =>
    rw [hbuggy] at hadd
    cases hadd
    have hget : (u.withKey P key t.keyset.metadata.nextKeyVersionNumber hash).getKey t.keyset.metadata.nextKeyVersionNumber = some key := by
      rw [getKey_withKey, if_pos rfl]
    rw [← hversion.keyType_eq] at hkey
    obtain ⟨hsaved, hextends⟩ := hwithVersion.onNewKey hget hkey hbuggy
    have hfinal := htrail'.tell (m := .newKey key t.keyset.metadata.nextKeyVersionNumber) rfl
      ⟨⟨_, _, hsaved⟩, fun n text hn htext => hextends n text hn (hstopped.extends_ n text hn htext)⟩
    exact ⟨⟨_, hfinal⟩, fun n _ => ⟨_, hfinal, hsaved⟩⟩

end ManagedKeyset

end Cpp
