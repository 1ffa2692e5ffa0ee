import Keyczar.Python.Keys
import Mathlib.Data.List.AList

/-!
# Key sets: `keydata.py` and the class `Keyczar`

A key set is a metadata record, the `KeyVersion` objects it shares with the rest, and one dictionary that maps both version
objects and hash identifiers to keys. Loading goes through the versions of the metadata in the order of their dictionary and
writes both entries of each key.
-/

namespace Python

open Bytes

/-! ## Kinds of keys -/

/-- The methods of a kind of keys: the bytes of the hash identifier, and the operations with the randomness they draw. An operation
that a kind does not have raises. -/
structure KeyClass (κ ρ : Type) where
  hash : κ → Bytes
  length_hash : ∀ k, (hash k).length = KEY_HASH_SIZE
  encrypt : κ → ρ → Bytes → Except PyError Bytes
  decrypt : κ → Bytes → Except PyError Bytes
  sign : κ → ρ → Bytes → Except PyError Bytes
  verify : κ → Bytes → Bytes → Except PyError Bool

namespace KeyClass

variable {κ ρ : Type} (C : KeyClass κ ρ)

def hashId (k : κ) : Bytes := base64WSEncode (C.hash k)

/-- `Key.Header`. -/
def header (k : κ) : Bytes := Python.header (C.hash k)

theorem length_header (k : κ) : (C.header k).length = HEADER_SIZE := by
  simp [header, Python.header, C.length_hash, HEADER_SIZE, Nat.add_comm]

/-- The primitives of a kind of keys are right for a single key: what a key encrypts it decrypts, what it signs it verifies, and
a ciphertext starts with the header of its key. -/
structure Lawful : Prop where
  encrypt_header : ∀ {k r d c}, C.encrypt k r d = .ok c → c.take HEADER_SIZE = C.header k
  decrypt_encrypt : ∀ {k r d c}, C.encrypt k r d = .ok c → C.decrypt k c = .ok d
  verify_sign : ∀ {k r m s}, C.sign k r m = .ok s → C.verify k m s = .ok true

end KeyClass

/-- The random bytes of one encryption. -/
abbrev IvBytes : Type := { iv : Bytes // iv.length = 16 }

/-- AES keys. -/
def aesKeys (P : Primitives) : KeyClass AesKey IvBytes where
  hash := AesKey.hash P
  length_hash := AesKey.length_hash P
  encrypt k iv d := k.encrypt P iv.val d
  decrypt k c := k.decrypt P c
  sign _ _ _ := .error .attributeError
  verify _ _ _ := .error .attributeError

/-- HMAC keys. -/
def hmacKeys (P : Primitives) : KeyClass HmacKey Unit where
  hash := HmacKey.hash P
  length_hash := HmacKey.length_hash P
  encrypt _ _ _ := .error .attributeError
  decrypt _ _ := .error .attributeError
  sign k _ m := .ok (k.sign P m)
  verify k m s := .ok (k.verify P m s)

theorem aesKeys_lawful (P : Primitives) : (aesKeys P).Lawful where
  encrypt_header := by
    intro k iv d c h
    by_cases hk : validKeyLength k.keyBytes.length = true
    · have hc : k.ciphertext P iv.val d = c := Except.ok.inj ((AesKey.encrypt_eq P k iv.val d hk).symm.trans h)
      rw [← hc, AesKey.ciphertext, List.append_assoc, List.append_assoc]
      exact List.take_left' (AesKey.length_header P k)
    · simp [aesKeys, AesKey.encrypt, AesCipher.new, hk, bind, Except.bind] at h
  decrypt_encrypt := by
    intro k iv d c h
    by_cases hk : validKeyLength k.keyBytes.length = true
    · have hc : k.ciphertext P iv.val d = c := Except.ok.inj ((AesKey.encrypt_eq P k iv.val d hk).symm.trans h)
      rw [← hc]
      exact AesKey.decrypt_ciphertext P k iv.property d hk
    · simp [aesKeys, AesKey.encrypt, AesCipher.new, hk, bind, Except.bind] at h
  verify_sign := nofun

theorem hmacKeys_lawful (P : Primitives) : (hmacKeys P).Lawful where
  encrypt_header := nofun
  decrypt_encrypt := nofun
  verify_sign := by
    intro k r m s h
    exact congrArg Except.ok ((HmacKey.verify_iff P k m s).mpr (Except.ok.inj h))

/-! ## `keydata.py` -/

/-- Where a `KeyVersion` object lives. -/
abbrev Ref : Type := Nat

/-- A `KeyVersion` object. -/
structure KeyVersion where
  versionNumber : Int
  status : KeyStatus
  exportable : Bool
  deriving DecidableEq, Repr

/-- The `KeyVersion` objects made so far; the next one lives at `next`. -/
structure Heap where
  object : Ref → KeyVersion
  next : Ref

namespace Heap

/-- No object has been made. -/
def empty : Heap := { object := fun _ => ⟨0, .inactive, false⟩, next := 0 }

/-- Make an object. -/
def alloc (h : Heap) (v : KeyVersion) : Heap := { object := Function.update h.object h.next v, next := h.next + 1 }

/-- Assign to the status of an object. -/
def setStatus (h : Heap) (r : Ref) (s : KeyStatus) : Heap :=
  { h with object := Function.update h.object r { h.object r with status := s } }

@[simp] theorem next_alloc (h : Heap) (v : KeyVersion) : (h.alloc v).next = h.next + 1 := rfl

@[simp] theorem object_alloc_self (h : Heap) (v : KeyVersion) : (h.alloc v).object h.next = v := by
  simp [alloc]

theorem object_alloc_of_lt {h : Heap} {r : Ref} (hr : r < h.next) (v : KeyVersion) : (h.alloc v).object r = h.object r := by
  simp [alloc, Function.update_of_ne (Nat.ne_of_lt hr)]

@[simp] theorem next_setStatus (h : Heap) (r : Ref) (s : KeyStatus) : (h.setStatus r s).next = h.next := rfl

theorem status_setStatus (h : Heap) (r r' : Ref) (s : KeyStatus) :
    ((h.setStatus r s).object r').status = if r' = r then s else (h.object r').status := by
  by_cases hr : r' = r
  · subst hr
    simp [setStatus]
  · simp [setStatus, hr]

/-- Assigning a status leaves every version number as it is. -/
@[simp] theorem versionNumber_setStatus (h : Heap) (r r' : Ref) (s : KeyStatus) :
    ((h.setStatus r s).object r').versionNumber = (h.object r').versionNumber := by
  by_cases hr : r' = r
  · subst hr
    simp [setStatus]
  · simp [setStatus, Function.update_of_ne hr]

/-- Assign to the status of an object that may be `None`. -/
def setStatusOfSome (h : Heap) (r : Option Ref) (s : KeyStatus) : Heap :=
  match r with
  | some r => h.setStatus r s
  | none => h

@[simp] theorem next_setStatusOfSome (h : Heap) (r : Option Ref) (s : KeyStatus) :
    (h.setStatusOfSome r s).next = h.next := by
  cases r <;> rfl

@[simp] theorem versionNumber_setStatusOfSome (h : Heap) (r : Option Ref) (r' : Ref) (s : KeyStatus) :
    ((h.setStatusOfSome r s).object r').versionNumber = (h.object r').versionNumber := by
  cases r with
  | none => rfl
  | some r => exact versionNumber_setStatus h r r' s

theorem status_setStatusOfSome (h : Heap) (r : Option Ref) (r' : Ref) (s : KeyStatus) :
    ((h.setStatusOfSome r s).object r').status = if r = some r' then s else (h.object r').status := by
  cases r with
  | none => rfl
  | some r =>
    rw [setStatusOfSome, status_setStatus]
    simp [eq_comm]

end Heap

/-- The metadata of a key set: a dictionary from version numbers to version objects. -/
structure KeyMetadata where
  name : String
  purpose : KeyPurpose
  type : KeyType
  encrypted : Bool := false
  versions : AList (fun _ : Int => Ref) := ∅

namespace KeyMetadata

/-- The property `versions`: the version objects. -/
def refs (m : KeyMetadata) : List Ref := m.versions.entries.map Sigma.snd

/-- `AddVersion`: a number that is already there is refused. -/
def addVersion (m : KeyMetadata) (num : Int) (r : Ref) : KeyMetadata × Bool :=
  if num ∈ m.versions then (m, false) else ({ m with versions := m.versions.insert num r }, true)

/-- `RemoveVersion`. -/
def removeVersion (m : KeyMetadata) (versionNumber : Int) : Except PyError KeyMetadata :=
  if versionNumber ∈ m.versions then .ok { m with versions := m.versions.erase versionNumber }
  else .error (.keyczarError ("No such version number: " ++ toString versionNumber))

/-- `GetVersion`. -/
def getVersion (m : KeyMetadata) (versionNumber : Int) : Except PyError Ref :=
  match m.versions.lookup versionNumber with
  | some r => .ok r
  | none => .error (.keyczarError ("No such version number: " ++ toString versionNumber))

end KeyMetadata

/-- The JSON text of a version, parsed. -/
structure JsonVersion where
  versionNumber : Int
  status : String
  exportable : Bool
  deriving DecidableEq, Repr

/-- The JSON text of the metadata, parsed. -/
structure JsonMetadata where
  name : String
  purpose : String
  type : String
  encrypted : Bool
  versions : List JsonVersion
  deriving DecidableEq, Repr

/-- `KeyVersion.Read`, then `AddVersion`: the object is made whether or not it is added. -/
def readVersion (s : KeyMetadata × Heap) (j : JsonVersion) : Except PyError (KeyMetadata × Heap) := do
  let status ← getStatus j.status
  return ((s.1.addVersion j.versionNumber s.2.next).1, s.2.alloc ⟨j.versionNumber, status, j.exportable⟩)

/-- `KeyMetadata.Read`. -/
def readMetadata (meta_ : JsonMetadata) : Except PyError (KeyMetadata × Heap) := do
  let purpose ← getPurpose meta_.purpose
  let type ← getType meta_.type
  meta_.versions.foldlM readVersion ({ name := meta_.name, purpose, type, encrypted := meta_.encrypted }, Heap.empty)

/-! ## The class `Keyczar` -/

/-- The state of a key set. -/
structure Keyczar (κ : Type) where
  metadata : KeyMetadata
  heap : Heap
  keys : AList (fun _ : KeyId => κ)
  primaryVersion : Option Ref
  defaultSize : Int

/-- Where a key set is read from: the metadata, whether it decrypts what it reads, and the key of each version number, parsed as
a key of the given type. -/
structure Reader (κ : Type) where
  metadata : JsonMetadata
  isEncryptedReader : Bool
  getKey : KeyType → Int → Except PyError κ

/-- The order in which a dictionary of the language lists its values: it is not specified, and may be any. -/
structure DictOrder where
  list : List Ref → List Ref
  perm : ∀ l, (list l).Perm l

namespace Keyczar

variable {κ ρ : Type} (C : KeyClass κ ρ)

/-- Both entries of a key: under its version object, then under its hash identifier. -/
def addEntries (keys : AList (fun _ : KeyId => κ)) (r : Ref) (key : κ) : AList (fun _ : KeyId => κ) :=
  (keys.insert (.version r) key).insert (.hash (C.hashId key)) key

/-- One turn of the loop of `__init__`. -/
def loadVersion (reader : Reader κ) (s : Keyczar κ) (r : Ref) : Except PyError (Keyczar κ) := do
  let primaryVersion ←
    if (s.heap.object r).status = .primary then
      if s.primaryVersion.isSome then throw (.keyczarError "Key sets may only have a single primary version")
      else pure (some r)
    else pure s.primaryVersion
  let key ← reader.getKey s.metadata.type (s.heap.object r).versionNumber
  return { s with primaryVersion, keys := addEntries C s.keys r key }

/-- `__init__`, with the purposes that the subclass accepts. -/
def init (isAcceptablePurpose : KeyPurpose → Bool) (order : DictOrder) (reader : Reader κ) : Except PyError (Keyczar κ) := do
  let (metadata, heap) ← readMetadata reader.metadata
  if !isAcceptablePurpose metadata.purpose then
    throw (.keyczarError ("Unacceptable purpose: " ++ metadata.purpose.name))
  if metadata.encrypted && !reader.isEncryptedReader then throw (.keyczarError "Need encrypted reader.")
  (order.list metadata.refs).foldlM (loadVersion C reader)
    { metadata, heap, keys := ∅, primaryVersion := none, defaultSize := metadata.type.defaultSize }

/-- The property `versions`: the version objects that have a key. -/
def versions (s : Keyczar κ) : List Ref :=
  s.keys.entries.filterMap fun e => match e.1 with
    | .version r => some r
    | _ => none

/-- `GetKey`. -/
def getKey (s : Keyczar κ) (keyId : KeyId) : Except PyError κ :=
  match s.keys.lookup keyId with
  | some key => .ok key
  | none => .error (.keyNotFoundError keyId)

/-- The property `primary_key`. -/
def primaryKey (s : Keyczar κ) : Except PyError κ :=
  s.getKey (match s.primaryVersion with
    | none => .none
    | some r => .version r)

/-- `_ParseHeader`. -/
def parseHeader (s : Keyczar κ) : Bytes → Except PyError κ
  | [] => .error .indexError
  | version :: hash =>
    if version ≠ VERSION then .error (.badVersionError version) else s.getKey (.hash (base64WSEncode hash))

end Keyczar

/-! ## What loading does -/

/-- The metadata and the objects fit: the object of a version number exists and has that number. -/
def Fits (m : KeyMetadata) (h : Heap) : Prop :=
  ∀ n r, m.versions.lookup n = some r → r < h.next ∧ (h.object r).versionNumber = n

namespace KeyMetadata

theorem mem_refs_iff (m : KeyMetadata) (r : Ref) : r ∈ m.refs ↔ ∃ n, m.versions.lookup n = some r := by
  simp only [refs, List.mem_map]
  constructor
  · rintro ⟨⟨n, r⟩, h, rfl⟩
    exact ⟨n, AList.mem_lookup_iff.mpr h⟩
  · rintro ⟨n, h⟩
    exact ⟨⟨n, r⟩, AList.mem_lookup_iff.mp h, rfl⟩

/-- The version objects of metadata that fits its objects are different objects. -/
theorem nodup_refs {m : KeyMetadata} {h : Heap} (hf : Fits m h) : m.refs.Nodup := by
  refine List.Nodup.map_on ?_ m.versions.nodupKeys.nodup
  rintro ⟨n, r⟩ hn ⟨n', r'⟩ hn' heq
  have h1 := (hf n r (AList.mem_lookup_iff.mpr hn)).2
  have h2 := (hf n' r' (AList.mem_lookup_iff.mpr hn')).2
  have hr : r = r' := heq
  subst hr
  have hnum : n = n' := h1.symm.trans h2
  subst hnum
  rfl

end KeyMetadata

/-- Reading one version keeps the fit: the new object has the number it is added under. -/
theorem Fits.readVersion {s s' : KeyMetadata × Heap} {j : JsonVersion} (hf : Fits s.1 s.2) (h : readVersion s j = .ok s') :
    Fits s'.1 s'.2 := by
  unfold Python.readVersion at h
  cases hs : getStatus j.status with
  | error e => rw [hs] at h; cases h
  | ok status =>
    rw [hs] at h
    cases Except.ok.inj h
    intro n r hl
    have hold : s.1.versions.lookup n = some r → r < s.2.next + 1 ∧
        ((s.2.alloc ⟨j.versionNumber, status, j.exportable⟩).object r).versionNumber = n := by
      intro hl
      obtain ⟨hr, hn⟩ := hf n r hl
      exact ⟨Nat.lt_succ_of_lt hr, by rw [Heap.object_alloc_of_lt hr, hn]⟩
    unfold KeyMetadata.addVersion at hl
    split at hl
    · exact hold hl
    · by_cases hn : n = j.versionNumber
      · subst hn
        rw [AList.lookup_insert] at hl
        cases Option.some.inj hl
        exact ⟨Nat.lt_succ_self _, by rw [Heap.object_alloc_self]⟩
      · rw [AList.lookup_insert_ne hn] at hl
        exact hold hl

theorem Fits.readVersions {l : List JsonVersion} {s s' : KeyMetadata × Heap} (hf : Fits s.1 s.2)
    (h : l.foldlM Python.readVersion s = .ok s') : Fits s'.1 s'.2 := by
  induction l generalizing s with
  | nil =>
    cases Except.ok.inj h
    exact hf
  | cons j l ih =>
    rw [List.foldlM_cons] at h
    cases hj : Python.readVersion s j with
    | error e => rw [hj] at h; cases h
    | ok t =>
      rw [hj] at h
      exact ih (hf.readVersion hj) h

/-- The metadata that is read fits the objects that are made for it. -/
theorem fits_of_readMetadata {j : JsonMetadata} {m : KeyMetadata} {h : Heap} (hr : readMetadata j = .ok (m, h)) :
    Fits m h := by
  unfold readMetadata at hr
  cases hp : getPurpose j.purpose with
  | error e => rw [hp] at hr; cases hr
  | ok purpose =>
    cases ht : getType j.type with
    | error e => rw [hp, ht] at hr; cases hr
    | ok type =>
      rw [hp, ht] at hr
      exact Fits.readVersions (s := (_, Heap.empty)) (fun n r hl => by cases hl) hr

namespace Keyczar

variable {κ ρ : Type} {C : KeyClass κ ρ}

/-- The key stored for a version, as its reader gives it. -/
def storedKey (reader : Reader κ) (s : Keyczar κ) (r : Ref) : Except PyError κ :=
  reader.getKey s.metadata.type (s.heap.object r).versionNumber

/-- What the loop of `__init__` has done to a state: read the key of each version, written both entries of each, and found at most
one primary version. -/
structure LoadedFrom (C : KeyClass κ ρ) (reader : Reader κ) (s s' : Keyczar κ) (l : List (Ref × κ)) : Prop where
  metadata_eq : s'.metadata = s.metadata
  heap_eq : s'.heap = s.heap
  defaultSize_eq : s'.defaultSize = s.defaultSize
  stored : ∀ p ∈ l, storedKey reader s p.1 = .ok p.2
  keys_eq : s'.keys = l.foldl (fun d p => addEntries C d p.1 p.2) s.keys
  primary_eq : s.primaryVersion.toList ++ (l.map Prod.fst).filter (fun r => (s.heap.object r).status = .primary) =
    s'.primaryVersion.toList

/-- One turn of the loop. -/
theorem loadedFrom_loadVersion {reader : Reader κ} {s s' : Keyczar κ} {r : Ref} (h : loadVersion C reader s r = .ok s') :
    ∃ key, LoadedFrom C reader s s' [(r, key)] := by
  unfold loadVersion at h
  by_cases hp : (s.heap.object r).status = .primary
  · cases hv : s.primaryVersion with
    | some w => rw [if_pos hp, hv] at h; cases h
    | none =>
      rw [if_pos hp, hv] at h
      cases hk : reader.getKey s.metadata.type (s.heap.object r).versionNumber with
      | error e =>
        rw [hk] at h
        cases h
      | ok key =>
        rw [hk] at h
        cases Except.ok.inj h
        exact ⟨key, rfl, rfl, rfl, by simpa [storedKey] using hk, rfl, by simp [hv, hp]⟩
  · rw [if_neg hp] at h
    cases hk : reader.getKey s.metadata.type (s.heap.object r).versionNumber with
    | error e =>
      rw [hk] at h
      cases h
    | ok key =>
      rw [hk] at h
      cases Except.ok.inj h
      exact ⟨key, rfl, rfl, rfl, by simpa [storedKey] using hk, rfl, by simp [hp]⟩

/-- The whole loop. -/
theorem loadedFrom_foldlM {reader : Reader κ} {refs : List Ref} {s s' : Keyczar κ}
    (h : refs.foldlM (loadVersion C reader) s = .ok s') :
    ∃ l, l.map Prod.fst = refs ∧ LoadedFrom C reader s s' l := by
  induction refs generalizing s with
  | nil =>
    cases Except.ok.inj h
    exact ⟨[], rfl, rfl, rfl, rfl, by simp, rfl, by simp⟩
  | cons r refs ih =>
    rw [List.foldlM_cons] at h
    cases ht : loadVersion C reader s r with
    | error e => rw [ht] at h; cases h
    | ok t =>
      rw [ht] at h
      obtain ⟨key, h1⟩ := loadedFrom_loadVersion ht
      obtain ⟨l, hl, h2⟩ := ih h
      refine ⟨(r, key) :: l, by rw [List.map_cons, hl], h2.metadata_eq.trans h1.metadata_eq, h2.heap_eq.trans h1.heap_eq,
        h2.defaultSize_eq.trans h1.defaultSize_eq, ?_, ?_, ?_⟩
      · intro p hp
        rcases List.mem_cons.mp hp with rfl | hp
        · exact h1.stored _ (List.mem_singleton_self _)
        · have := h2.stored p hp
          rwa [storedKey, h1.metadata_eq, h1.heap_eq] at this
      · rw [List.foldl_cons, h2.keys_eq, h1.keys_eq]
        rfl
      · rw [← h2.primary_eq, ← h1.primary_eq, h1.heap_eq]
        simp only [List.map_cons, List.map_nil, List.append_assoc, List.filter_cons, List.filter_nil]
        split
        · rfl
        · rfl

/-- A key set that `__init__` has accepted, with the versions in the order in which it loaded them. -/
structure Loaded (C : KeyClass κ ρ) (reader : Reader κ) (s : Keyczar κ) (l : List (Ref × κ)) : Prop where
  fits : Fits s.metadata s.heap
  perm : (l.map Prod.fst).Perm s.metadata.refs
  stored : ∀ p ∈ l, storedKey reader s p.1 = .ok p.2
  keys_eq : s.keys = l.foldl (fun d p => addEntries C d p.1 p.2) ∅
  primary_eq : (l.map Prod.fst).filter (fun r => (s.heap.object r).status = .primary) = s.primaryVersion.toList
  defaultSize_eq : s.defaultSize = s.metadata.type.defaultSize

theorem loaded_of_init {accept : KeyPurpose → Bool} {order : DictOrder} {reader : Reader κ} {s : Keyczar κ}
    (h : init C accept order reader = .ok s) :
    ∃ l, l.map Prod.fst = order.list s.metadata.refs ∧ Loaded C reader s l := by
  unfold init at h
  cases hm : readMetadata reader.metadata with
  | error e => rw [hm] at h; cases h
  | ok p =>
    obtain ⟨m, hp⟩ := p
    rw [hm] at h
    simp only [bind, Except.bind] at h
    split at h
    · cases h
    · split at h
      · cases h
      · obtain ⟨l, hl, hload⟩ := loadedFrom_foldlM h
        have hmeta := hload.metadata_eq
        have hheap := hload.heap_eq
        have hsize := hload.defaultSize_eq
        have hprim := hload.primary_eq
        have hstored := hload.stored
        dsimp only at hmeta hheap hsize hprim
        refine ⟨l, by rw [hl, hmeta], ?_, ?_, ?_, hload.keys_eq, ?_, by rw [hsize, hmeta]⟩
        · rw [hmeta, hheap]
          exact fits_of_readMetadata hm
        · rw [hl, hmeta]
          exact order.perm _
        · intro p hp
          have := hstored p hp
          rwa [storedKey, ← hmeta, ← hheap] at this
        · rw [hheap]
          simpa using hprim

/-! ## What the dictionary of keys holds -/

@[simp] theorem lookup_addEntries_hash_self (d : AList (fun _ : KeyId => κ)) (r : Ref) (key : κ) :
    (addEntries C d r key).lookup (.hash (C.hashId key)) = some key := by
  simp [addEntries]

theorem lookup_addEntries_hash_of_ne (d : AList (fun _ : KeyId => κ)) (r : Ref) {key : κ} {i : Bytes}
    (h : i ≠ C.hashId key) : (addEntries C d r key).lookup (.hash i) = d.lookup (.hash i) := by
  rw [addEntries, AList.lookup_insert_ne (by simpa using h), AList.lookup_insert_ne (by simp)]

@[simp] theorem lookup_addEntries_version_self (d : AList (fun _ : KeyId => κ)) (r : Ref) (key : κ) :
    (addEntries C d r key).lookup (.version r) = some key := by
  rw [addEntries, AList.lookup_insert_ne (by simp), AList.lookup_insert]

theorem lookup_addEntries_version_of_ne (d : AList (fun _ : KeyId => κ)) {r r' : Ref} (key : κ) (h : r' ≠ r) :
    (addEntries C d r key).lookup (.version r') = d.lookup (.version r') := by
  rw [addEntries, AList.lookup_insert_ne (by simp), AList.lookup_insert_ne (by simpa using h)]

/-- A hash identifier finds the key of the last version loaded that has it. -/
theorem lookup_hash_foldl (l : List (Ref × κ)) (d : AList (fun _ : KeyId => κ)) (i : Bytes) :
    (l.foldl (fun d p => addEntries C d p.1 p.2) d).lookup (.hash i) =
      ((l.reverse.find? fun p => C.hashId p.2 = i).map Prod.snd).or (d.lookup (.hash i)) := by
  induction l generalizing d with
  | nil => simp
  | cons p l ih =>
    rw [List.foldl_cons, ih, List.reverse_cons, List.find?_append]
    cases hf : l.reverse.find? (fun p => C.hashId p.2 = i) with
    | some q => simp
    | none =>
      by_cases hp : C.hashId p.2 = i
      · subst hp
        simp
      · rw [lookup_addEntries_hash_of_ne _ _ (Ne.symm hp)]
        simp [hp]

/-- A version object finds its own key. -/
theorem lookup_version_foldl {l : List (Ref × κ)} {d : AList (fun _ : KeyId => κ)} {r : Ref}
    (h : r ∉ l.map Prod.fst) : (l.foldl (fun d p => addEntries C d p.1 p.2) d).lookup (.version r) = d.lookup (.version r) := by
  induction l generalizing d with
  | nil => rfl
  | cons p l ih =>
    simp only [List.map_cons, List.mem_cons, not_or] at h
    rw [List.foldl_cons, ih h.2, lookup_addEntries_version_of_ne _ _ h.1]

theorem lookup_version_of_mem {l : List (Ref × κ)} {d : AList (fun _ : KeyId => κ)} {p : Ref × κ}
    (hl : (l.map Prod.fst).Nodup) (h : p ∈ l) :
    (l.foldl (fun d p => addEntries C d p.1 p.2) d).lookup (.version p.1) = some p.2 := by
  induction l generalizing d with
  | nil => cases h
  | cons q l ih =>
    rw [List.map_cons, List.nodup_cons] at hl
    rw [List.foldl_cons]
    rcases List.mem_cons.mp h with rfl | h
    · rw [lookup_version_foldl hl.1, lookup_addEntries_version_self]
    · exact ih hl.2 h

/-- Looking up by a version object succeeds when the dictionary has it. -/
theorem getKey_eq_ok_iff {s : Keyczar κ} {i : KeyId} {key : κ} : s.getKey i = .ok key ↔ s.keys.lookup i = some key := by
  unfold getKey
  cases s.keys.lookup i with
  | none => simp
  | some k => simp

end Keyczar

/-! ## A small key set -/

/-- Two HMAC keys with different identifiers. -/
def smallKey : HmacKey := { keyBytes := [1, 2, 3, 4] }

def otherKey : HmacKey := { keyBytes := [5, 6, 7, 8] }

/-- Dictionaries listed as they are. -/
def asListed : DictOrder := { list := id, perm := fun l => List.Perm.refl l }

/-- A key set with one primary version, as a reader gives it. -/
def smallReader : Reader HmacKey where
  metadata := { name := "small", purpose := "SIGN_AND_VERIFY", type := "HMAC_SHA1", encrypted := false,
                versions := [⟨1, "PRIMARY", false⟩] }
  isEncryptedReader := false
  getKey _ _ := .ok smallKey

/-- The same key set, loaded. -/
def smallSet : Keyczar HmacKey where
  metadata := { name := "small", purpose := .signAndVerify, type := .hmacSha1, versions := (∅ : AList _).insert 1 0 }
  heap := Heap.empty.alloc ⟨1, .primary, false⟩
  keys := Keyczar.addEntries (hmacKeys Primitives.plain) ∅ 0 smallKey
  primaryVersion := some 0
  defaultSize := 256

end Python
