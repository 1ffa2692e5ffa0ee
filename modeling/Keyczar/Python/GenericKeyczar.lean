import Keyczar.Lib.Lifecycle
import Keyczar.Python.Keyczar

/-!
# The key-set state machine: `GenericKeyczar`

The four operations that change a key set, each with the state it leaves when it raises. Key generation is whatever the
generators return, call after call: a key, or an exception.
-/

namespace Python

/-! ## Key generation -/

/-- What `keys.GenKey` does before it calls the generator of a type. -/
def checkGenKey (keyType : KeyType) (size : Int) : Except PyError Unit :=
  if !keyType.isValidSize size then .error (.keyczarError ("Unsupported key size " ++ toString size ++ " bits."))
  else match keyType with
    | .aes | .hmacSha1 | .dsaPriv | .rsaPriv => .ok ()
    | .dsaPub | .rsaPub =>
      .error (.keyczarError ("Public keys of key_type " ++ keyType.name ++ " must be exported from private keys."))

/-- `keys.GenKey` until a key comes whose hash identifier is not in use. The list is what the generator returns, call after call;
`none` when the loop goes on after all of it. -/
def genUnusedKey {κ ρ : Type} (C : KeyClass κ ρ) (keys : AList (fun _ : KeyId => κ)) (keyType : KeyType) (size : Int) :
    List (Except PyError κ) → Option (Except PyError κ)
  | [] =>
    match checkGenKey keyType size with
    | .error e => some (.error e)
    | .ok () => none
  | key :: generated =>
    match checkGenKey keyType size with
    | .error e => some (.error e)
    | .ok () =>
      match key with
      | .error e => some (.error e)
      | .ok key =>
        if (keys.lookup (.hash (C.hashId key))).isNone then some (.ok key) else genUnusedKey C keys keyType size generated

/-! ## The operations -/

namespace GenericKeyczar

variable {κ ρ : Type} (C : KeyClass κ ρ)

/-- `__init__`: every purpose is acceptable. -/
def init (order : DictOrder) (reader : Reader κ) : Except PyError (Keyczar κ) := Keyczar.init C (fun _ => true) order reader

/-- The largest version number among the versions that have a key, and at least zero. -/
def maxVersionNumber (s : Keyczar κ) : Int :=
  s.versions.foldl (fun maxVersionNumber r =>
    if maxVersionNumber < (s.heap.object r).versionNumber then (s.heap.object r).versionNumber else maxVersionNumber) 0

/-- `_AddKey`. -/
def addKey (s : Keyczar κ) (version : Ref) (key : κ) : Keyczar κ :=
  { s with
    keys := Keyczar.addEntries C s.keys version key
    metadata := (s.metadata.addVersion (s.heap.object version).versionNumber version).1 }

/-- The new version object, and the new primary version with the demotion of the old one. -/
def addVersionObject (s : Keyczar κ) (status : KeyStatus) : Keyczar κ :=
  let version := s.heap.next
  let heap := s.heap.alloc ⟨maxVersionNumber s + 1, status, false⟩
  if status = .primary then
    { s with heap := heap.setStatusOfSome s.primaryVersion .active, primaryVersion := some version }
  else { s with heap }

/-- `AddVersion`. The primary version is replaced before the key is generated; the warning it prints is not modelled. -/
def addVersion (s : Keyczar κ) (status : KeyStatus) (size : Option Int) (generated : List (Except PyError κ)) :
    Option (Except PyError Unit × Keyczar κ) :=
  let size := size.getD s.defaultSize
  if !s.metadata.type.isValidSize size then
    some (.error (.keyczarError ("Unsupported key size " ++ toString size ++ " bits.")), s)
  else
    let version := s.heap.next
    let s := addVersionObject s status
    match genUnusedKey C s.keys s.metadata.type size generated with
    | none => none
    | some (.error e) => some (.error e, s)
    | some (.ok key) => some (.ok (), addKey C s version key)

/-- `Promote`. -/
def promote (s : Keyczar κ) (versionNumber : Int) : Except PyError Unit × Keyczar κ :=
  match s.metadata.getVersion versionNumber with
  | .error e => (.error e, s)
  | .ok version =>
    match (s.heap.object version).status with
    | .primary => (.error (.keyczarError "Can't promote a primary key."), s)
    | .active =>
      let heap := s.heap.setStatus version .primary
      (.ok (), { s with heap := heap.setStatusOfSome s.primaryVersion .active, primaryVersion := some version })
    | .inactive => (.ok (), { s with heap := s.heap.setStatus version .active })

/-- `Demote`. -/
def demote (s : Keyczar κ) (versionNumber : Int) : Except PyError Unit × Keyczar κ :=
  match s.metadata.getVersion versionNumber with
  | .error e => (.error e, s)
  | .ok version =>
    match (s.heap.object version).status with
    | .primary => (.ok (), { s with heap := s.heap.setStatus version .active, primaryVersion := none })
    | .active => (.ok (), { s with heap := s.heap.setStatus version .inactive })
    | .inactive => (.error (.keyczarError "Can't demote an inactive key, only revoke."), s)

/-- `Revoke`. The key stays in the dictionary. -/
def revoke (s : Keyczar κ) (versionNumber : Int) : Except PyError Unit × Keyczar κ :=
  match s.metadata.getVersion versionNumber with
  | .error e => (.error e, s)
  | .ok version =>
    match (s.heap.object version).status with
    | .inactive =>
      match s.metadata.removeVersion versionNumber with
      | .error e => (.error e, s)
      | .ok metadata => (.ok (), { s with metadata })
    | _ => (.error (.keyczarError "Can't revoke key if not inactive."), s)

/-- A call of one of the four operations. -/
inductive Op (κ : Type) where
  | addVersion (status : KeyStatus) (size : Option Int) (generated : List (Except PyError κ))
  | promote (versionNumber : Int)
  | demote (versionNumber : Int)
  | revoke (versionNumber : Int)

/-- What a call returns and the state it leaves; `none` when it does not return. -/
def step (s : Keyczar κ) : Op κ → Option (Except PyError Unit × Keyczar κ)
  | .addVersion status size generated => addVersion C s status size generated
  | .promote n => some (promote s n)
  | .demote n => some (demote s n)
  | .revoke n => some (revoke s n)

/-- The number that `AddVersion` hands out in a state. -/
def handedOut (s : Keyczar κ) : Op κ → List Int
  | .addVersion _ _ _ => [maxVersionNumber s + 1]
  | _ => []

/-- A run of calls that all return without raising, with the numbers handed out in it. -/
inductive Runs (s₀ : Keyczar κ) : List Int → Keyczar κ → Prop where
  | start : Runs s₀ [] s₀
  | step {assigned : List Int} {s s' : Keyczar κ} (op : Op κ) (run : Runs s₀ assigned s)
      (returns : step C s op = some (.ok (), s')) : Runs s₀ (assigned ++ handedOut s op) s'

/-- The states of a run of calls that return or raise. -/
inductive Reachable (s₀ : Keyczar κ) : Keyczar κ → Prop where
  | start : Reachable s₀ s₀
  | step {s s' : Keyczar κ} {result : Except PyError Unit} (op : Op κ) (run : Reachable s₀ s)
      (ends : step C s op = some (result, s')) : Reachable s₀ s'

/-! ## Version numbers -/

variable {C}

theorem mem_versions_iff {s : Keyczar κ} {r : Ref} : r ∈ s.versions ↔ ∃ key, s.keys.lookup (.version r) = some key := by
  simp only [Keyczar.versions, List.mem_filterMap]
  constructor
  · rintro ⟨⟨i, key⟩, hmem, hi⟩
    cases i with
    | version r' =>
      cases Option.some.inj hi
      exact ⟨key, AList.mem_lookup_iff.mpr hmem⟩
    | none => cases hi
    | hash h => cases hi
  · rintro ⟨key, hkey⟩
    exact ⟨⟨.version r, key⟩, AList.mem_lookup_iff.mp hkey, rfl⟩

/-- No version that has a key has a larger number than the maximum. -/
theorem le_maxVersionNumber {s : Keyczar κ} {r : Ref} (h : r ∈ s.versions) :
    (s.heap.object r).versionNumber ≤ maxVersionNumber s :=
  (Lifecycle.le_foldl_max (fun r => (s.heap.object r).versionNumber) s.versions 0).2 r h

theorem lookup_of_getVersion {m : KeyMetadata} {n : Int} {r : Ref} (h : m.getVersion n = .ok r) :
    m.versions.lookup n = some r := by
  unfold KeyMetadata.getVersion at h
  split at h
  · rename_i r' hr'
    rw [hr', Except.ok.inj h]
  · cases h

theorem mem_refs_of_getVersion {m : KeyMetadata} {n : Int} {r : Ref} (h : m.getVersion n = .ok r) : r ∈ m.refs :=
  (m.mem_refs_iff r).mpr ⟨n, lookup_of_getVersion h⟩

/-! ## The new version object -/

@[simp] theorem metadata_addVersionObject (s : Keyczar κ) (status : KeyStatus) :
    (addVersionObject s status).metadata = s.metadata := by
  unfold addVersionObject
  split <;> rfl

@[simp] theorem keys_addVersionObject (s : Keyczar κ) (status : KeyStatus) : (addVersionObject s status).keys = s.keys := by
  unfold addVersionObject
  split <;> rfl

@[simp] theorem next_addVersionObject (s : Keyczar κ) (status : KeyStatus) :
    (addVersionObject s status).heap.next = s.heap.next + 1 := by
  unfold addVersionObject
  split
  · simp
  · simp

theorem versionNumber_addVersionObject_self (s : Keyczar κ) (status : KeyStatus) :
    ((addVersionObject s status).heap.object s.heap.next).versionNumber = maxVersionNumber s + 1 := by
  unfold addVersionObject
  split
  · simp
  · simp

theorem versionNumber_addVersionObject_of_lt {s : Keyczar κ} {r : Ref} (hr : r < s.heap.next) (status : KeyStatus) :
    ((addVersionObject s status).heap.object r).versionNumber = (s.heap.object r).versionNumber := by
  unfold addVersionObject
  split
  · simp [Heap.object_alloc_of_lt hr]
  · simp [Heap.object_alloc_of_lt hr]

theorem primaryVersion_addVersionObject (s : Keyczar κ) (status : KeyStatus) :
    (addVersionObject s status).primaryVersion = if status = .primary then some s.heap.next else s.primaryVersion := by
  unfold addVersionObject
  split <;> rfl

/-- The old primary version is demoted exactly when the new one is primary. -/
theorem status_addVersionObject_of_lt {s : Keyczar κ} {r : Ref} (hr : r < s.heap.next) (status : KeyStatus) :
    ((addVersionObject s status).heap.object r).status =
      if status = .primary ∧ s.primaryVersion = some r then .active else (s.heap.object r).status := by
  unfold addVersionObject
  by_cases h : status = .primary
  · simp [h, Heap.status_setStatusOfSome, Heap.object_alloc_of_lt hr]
  · simp [h, Heap.object_alloc_of_lt hr]

theorem status_addVersionObject_self {s : Keyczar κ} (hp : s.primaryVersion ≠ some s.heap.next) (status : KeyStatus) :
    ((addVersionObject s status).heap.object s.heap.next).status = status := by
  unfold addVersionObject
  by_cases h : status = .primary
  · simp [h, Heap.status_setStatusOfSome, hp]
  · simp [h]

/-- The key that is generated in the end has a hash identifier that was not in use. -/
theorem unused_of_genUnusedKey {keys : AList (fun _ : KeyId => κ)} {keyType : KeyType} {size : Int}
    {generated : List (Except PyError κ)} {key : κ} (h : genUnusedKey C keys keyType size generated = some (.ok key)) :
    keys.lookup (.hash (C.hashId key)) = none := by
  induction generated with
  | nil =>
    unfold genUnusedKey at h
    split at h
    · cases h
    · cases h
  | cons first generated ih =>
    unfold genUnusedKey at h
    split at h
    · cases h
    · split at h
      · cases h
      · split at h
        · rename_i hnone
          cases h
          exact Option.isNone_iff_eq_none.mp hnone
        · exact ih h

/-- How `AddVersion` ends: it refuses the size, or the key generation raises, or a key is added whose hash identifier was not in
use. -/
theorem addVersion_cases {s s' : Keyczar κ} {status : KeyStatus} {size : Option Int} {generated : List (Except PyError κ)}
    {result : Except PyError Unit} (h : addVersion C s status size generated = some (result, s')) :
    (s.metadata.type.isValidSize (size.getD s.defaultSize) = false ∧ (∃ e, result = .error e) ∧ s' = s) ∨
    (s.metadata.type.isValidSize (size.getD s.defaultSize) = true ∧ (∃ e, result = .error e) ∧
      s' = addVersionObject s status) ∨
    (s.metadata.type.isValidSize (size.getD s.defaultSize) = true ∧ result = .ok () ∧
      ∃ key, s.keys.lookup (.hash (C.hashId key)) = none ∧
        s' = addKey C (addVersionObject s status) s.heap.next key) := by
  unfold addVersion at h
  by_cases hv : s.metadata.type.isValidSize (size.getD s.defaultSize) = true
  · simp only [hv, Bool.not_true, Bool.false_eq_true, if_false] at h
    split at h
    · cases h
    · rename_i e _
      cases h
      exact Or.inr (Or.inl ⟨hv, ⟨e, rfl⟩, rfl⟩)
    · rename_i key hkey
      cases h
      refine Or.inr (Or.inr ⟨hv, rfl, key, ?_, rfl⟩)
      rw [← keys_addVersionObject s status]
      exact unused_of_genUnusedKey hkey
  · rw [Bool.not_eq_true] at hv
    simp only [hv, Bool.not_false, if_true] at h
    cases h
    exact Or.inl ⟨hv, ⟨_, rfl⟩, rfl⟩

/-! ## What every call keeps -/

/-- The version objects are where the metadata, the keys and the primary version say they are. -/
structure Live (s : Keyczar κ) : Prop where
  fits : Fits s.metadata s.heap
  listed : ∀ r ∈ s.metadata.refs, r ∈ s.versions
  version_lt : ∀ r ∈ s.versions, r < s.heap.next
  primary_lt : ∀ r, s.primaryVersion = some r → r < s.heap.next

theorem live_of_init {accept : KeyPurpose → Bool} {order : DictOrder} {reader : Reader κ} {s : Keyczar κ}
    (h : Keyczar.init C accept order reader = .ok s) : Live s := by
  obtain ⟨l, _, hl⟩ := Keyczar.loaded_of_init h
  have hnd : (l.map Prod.fst).Nodup := hl.perm.nodup_iff.mpr (KeyMetadata.nodup_refs hl.fits)
  have hlt : ∀ r ∈ l.map Prod.fst, r < s.heap.next := by
    intro r hr
    obtain ⟨n, hn⟩ := (s.metadata.mem_refs_iff r).mp (hl.perm.mem_iff.mp hr)
    exact (hl.fits n r hn).1
  refine ⟨hl.fits, ?_, ?_, ?_⟩
  · intro r hr
    obtain ⟨p, hp, rfl⟩ := List.mem_map.mp (hl.perm.mem_iff.mpr hr)
    exact mem_versions_iff.mpr ⟨p.2, by rw [hl.keys_eq]; exact Keyczar.lookup_version_of_mem hnd hp⟩
  · intro r hr
    obtain ⟨key, hkey⟩ := mem_versions_iff.mp hr
    by_contra hr'
    rw [hl.keys_eq, Keyczar.lookup_version_foldl fun hmem => hr' (hlt r hmem)] at hkey
    cases hkey
  · intro r hr
    have hmem : r ∈ (l.map Prod.fst).filter fun r => (s.heap.object r).status = .primary := by
      rw [hl.primary_eq, hr]
      exact List.mem_singleton_self r
    exact hlt r (List.mem_filter.mp hmem).1

/-- Other statuses and another primary version leave the objects where they are. -/
theorem Live.of_statuses {s : Keyczar κ} (h : Live s) {heap : Heap} {primaryVersion : Option Ref}
    (hnext : heap.next = s.heap.next) (hnum : ∀ r, (heap.object r).versionNumber = (s.heap.object r).versionNumber)
    (hp : ∀ r, primaryVersion = some r → r < s.heap.next) : Live { s with heap, primaryVersion } := by
  refine ⟨?_, h.listed, ?_, ?_⟩
  · intro n r hl
    obtain ⟨h1, h2⟩ := h.fits n r hl
    exact ⟨lt_of_lt_of_eq h1 hnext.symm, (hnum r).trans h2⟩
  · intro r hr
    exact lt_of_lt_of_eq (h.version_lt r hr) hnext.symm
  · intro r hr
    exact lt_of_lt_of_eq (hp r hr) hnext.symm

theorem Live.lt_of_getVersion {s : Keyczar κ} (h : Live s) {n : Int} {r : Ref} (hr : s.metadata.getVersion n = .ok r) :
    r < s.heap.next :=
  (h.fits n r (lookup_of_getVersion hr)).1

theorem versions_addVersionObject (s : Keyczar κ) (status : KeyStatus) :
    (addVersionObject s status).versions = s.versions := by
  unfold Keyczar.versions
  rw [keys_addVersionObject]

theorem Live.addVersionObject {s : Keyczar κ} (h : Live s) (status : KeyStatus) : Live (addVersionObject s status) := by
  refine ⟨?_, ?_, ?_, ?_⟩
  · intro n r hl
    rw [metadata_addVersionObject] at hl
    obtain ⟨h1, h2⟩ := h.fits n r hl
    rw [next_addVersionObject, versionNumber_addVersionObject_of_lt h1]
    exact ⟨Nat.lt_succ_of_lt h1, h2⟩
  · intro r hr
    rw [metadata_addVersionObject] at hr
    rw [versions_addVersionObject]
    exact h.listed r hr
  · intro r hr
    rw [versions_addVersionObject] at hr
    rw [next_addVersionObject]
    exact Nat.lt_succ_of_lt (h.version_lt r hr)
  · intro r hr
    rw [primaryVersion_addVersionObject] at hr
    rw [next_addVersionObject]
    split at hr
    · cases Option.some.inj hr
      exact Nat.lt_succ_self _
    · exact Nat.lt_succ_of_lt (h.primary_lt r hr)

/-- No version of the metadata has the number that is handed out. -/
theorem Live.not_mem_versions {s : Keyczar κ} (h : Live s) : maxVersionNumber s + 1 ∉ s.metadata.versions := by
  intro hmem
  obtain ⟨r, hr⟩ := Option.isSome_iff_exists.mp (AList.lookup_isSome.mpr hmem)
  have h1 := (h.fits _ r hr).2
  have h2 := le_maxVersionNumber (h.listed r ((s.metadata.mem_refs_iff r).mpr ⟨_, hr⟩))
  omega

/-- The metadata after a key was added has the new version under its number. -/
theorem Live.metadata_addKey {s : Keyczar κ} (h : Live s) (status : KeyStatus) (key : κ) :
    (addKey C (GenericKeyczar.addVersionObject s status) s.heap.next key).metadata =
      { s.metadata with versions := s.metadata.versions.insert (maxVersionNumber s + 1) s.heap.next } := by
  simp only [addKey, metadata_addVersionObject, versionNumber_addVersionObject_self, KeyMetadata.addVersion,
    if_neg h.not_mem_versions]

theorem Live.mem_refs_addKey_iff {s : Keyczar κ} (h : Live s) (status : KeyStatus) (key : κ) (r : Ref) :
    r ∈ (addKey C (GenericKeyczar.addVersionObject s status) s.heap.next key).metadata.refs ↔
      r = s.heap.next ∨ r ∈ s.metadata.refs := by
  rw [h.metadata_addKey, KeyMetadata.mem_refs_iff, KeyMetadata.mem_refs_iff]
  constructor
  · rintro ⟨n, hn⟩
    by_cases hnum : n = maxVersionNumber s + 1
    · subst hnum
      rw [AList.lookup_insert] at hn
      exact Or.inl (Option.some.inj hn).symm
    · rw [AList.lookup_insert_ne hnum] at hn
      exact Or.inr ⟨n, hn⟩
  · rintro (rfl | ⟨n, hn⟩)
    · exact ⟨_, AList.lookup_insert _⟩
    · refine ⟨n, ?_⟩
      rw [AList.lookup_insert_ne]
      · exact hn
      · rintro rfl
        exact h.not_mem_versions (AList.lookup_isSome.mp (Option.isSome_iff_exists.mpr ⟨r, hn⟩))

theorem mem_versions_addKey_iff {s : Keyczar κ} {version : Ref} {key : κ} {r : Ref} :
    r ∈ (addKey C s version key).versions ↔ r = version ∨ r ∈ s.versions := by
  simp only [mem_versions_iff, addKey]
  by_cases hr : r = version
  · subst hr
    simp
  · rw [Keyczar.lookup_addEntries_version_of_ne _ _ hr]
    simp [hr]

theorem Live.addKey {s : Keyczar κ} (h : Live s) (status : KeyStatus) (key : κ) :
    Live (addKey C (GenericKeyczar.addVersionObject s status) s.heap.next key) := by
  have hobj := h.addVersionObject status
  refine ⟨?_, ?_, ?_, hobj.primary_lt⟩
  · intro n r hl
    rw [h.metadata_addKey] at hl
    by_cases hn : n = maxVersionNumber s + 1
    · subst hn
      rw [AList.lookup_insert] at hl
      cases Option.some.inj hl
      exact ⟨lt_of_lt_of_eq (Nat.lt_succ_self _) (next_addVersionObject s status).symm,
        versionNumber_addVersionObject_self s status⟩
    · rw [AList.lookup_insert_ne hn] at hl
      exact hobj.fits n r (by rw [metadata_addVersionObject]; exact hl)
  · intro r hr
    rw [mem_versions_addKey_iff, versions_addVersionObject]
    rcases (h.mem_refs_addKey_iff status key r).mp hr with rfl | hr
    · exact Or.inl rfl
    · exact Or.inr (h.listed r hr)
  · intro r hr
    rcases mem_versions_addKey_iff.mp hr with rfl | hr
    · exact lt_of_lt_of_eq (Nat.lt_succ_self _) (next_addVersionObject s status).symm
    · exact hobj.version_lt r hr

theorem mem_refs_erase {m : KeyMetadata} {n : Int} {r : Ref}
    (h : r ∈ KeyMetadata.refs { m with versions := m.versions.erase n }) : r ∈ m.refs := by
  obtain ⟨n', hn'⟩ := (KeyMetadata.mem_refs_iff _ r).mp h
  by_cases hnn : n' = n
  · subst hnn
    rw [AList.lookup_erase] at hn'
    cases hn'
  · rw [AList.lookup_erase_ne hnn] at hn'
    exact (m.mem_refs_iff r).mpr ⟨n', hn'⟩

theorem Live.erase {s : Keyczar κ} (h : Live s) (n : Int) :
    Live { s with metadata := { s.metadata with versions := s.metadata.versions.erase n } } := by
  refine ⟨?_, fun r hr => h.listed r (mem_refs_erase hr), h.version_lt, h.primary_lt⟩
  intro n' r hl
  by_cases hnn : n' = n
  · subst hnn
    rw [AList.lookup_erase] at hl
    cases hl
  · rw [AList.lookup_erase_ne hnn] at hl
    exact h.fits n' r hl

/-! ## How the other calls end -/

theorem promote_cases {s s' : Keyczar κ} {n : Int} {result : Except PyError Unit} (h : promote s n = (result, s')) :
    ((∃ e, result = .error e) ∧ s' = s) ∨
    (result = .ok () ∧ ∃ version, s.metadata.getVersion n = .ok version ∧
      ((s.heap.object version).status = .active ∧
        s' = { s with
          heap := (s.heap.setStatus version .primary).setStatusOfSome s.primaryVersion .active
          primaryVersion := some version } ∨
       (s.heap.object version).status = .inactive ∧ s' = { s with heap := s.heap.setStatus version .active })) := by
  unfold promote at h
  cases hv : s.metadata.getVersion n with
  | error e =>
    rw [hv] at h
    cases h
    exact Or.inl ⟨⟨e, rfl⟩, rfl⟩
  | ok version =>
    rw [hv] at h
    cases hst : (s.heap.object version).status with
    | primary =>
      simp only [hst] at h
      cases h
      exact Or.inl ⟨⟨_, rfl⟩, rfl⟩
    | active =>
      simp only [hst] at h
      cases h
      exact Or.inr ⟨rfl, version, rfl, Or.inl ⟨hst, rfl⟩⟩
    | inactive =>
      simp only [hst] at h
      cases h
      exact Or.inr ⟨rfl, version, rfl, Or.inr ⟨hst, rfl⟩⟩

theorem demote_cases {s s' : Keyczar κ} {n : Int} {result : Except PyError Unit} (h : demote s n = (result, s')) :
    ((∃ e, result = .error e) ∧ s' = s) ∨
    (result = .ok () ∧ ∃ version, s.metadata.getVersion n = .ok version ∧
      ((s.heap.object version).status = .primary ∧
        s' = { s with heap := s.heap.setStatus version .active, primaryVersion := none } ∨
       (s.heap.object version).status = .active ∧ s' = { s with heap := s.heap.setStatus version .inactive })) := by
  unfold demote at h
  cases hv : s.metadata.getVersion n with
  | error e =>
    rw [hv] at h
    cases h
    exact Or.inl ⟨⟨e, rfl⟩, rfl⟩
  | ok version =>
    rw [hv] at h
    cases hst : (s.heap.object version).status with
    | primary =>
      simp only [hst] at h
      cases h
      exact Or.inr ⟨rfl, version, rfl, Or.inl ⟨hst, rfl⟩⟩
    | active =>
      simp only [hst] at h
      cases h
      exact Or.inr ⟨rfl, version, rfl, Or.inr ⟨hst, rfl⟩⟩
    | inactive =>
      simp only [hst] at h
      cases h
      exact Or.inl ⟨⟨_, rfl⟩, rfl⟩

theorem revoke_cases {s s' : Keyczar κ} {n : Int} {result : Except PyError Unit} (h : revoke s n = (result, s')) :
    ((∃ e, result = .error e) ∧ s' = s) ∨
    (result = .ok () ∧ ∃ version, s.metadata.getVersion n = .ok version ∧ (s.heap.object version).status = .inactive ∧
      s' = { s with metadata := { s.metadata with versions := s.metadata.versions.erase n } }) := by
  unfold revoke at h
  cases hv : s.metadata.getVersion n with
  | error e =>
    rw [hv] at h
    cases h
    exact Or.inl ⟨⟨e, rfl⟩, rfl⟩
  | ok version =>
    have hmem : n ∈ s.metadata.versions :=
      AList.lookup_isSome.mp (Option.isSome_iff_exists.mpr ⟨version, lookup_of_getVersion hv⟩)
    rw [hv] at h
    cases hst : (s.heap.object version).status with
    | primary =>
      simp only [hst] at h
      cases h
      exact Or.inl ⟨⟨_, rfl⟩, rfl⟩
    | active =>
      simp only [hst] at h
      cases h
      exact Or.inl ⟨⟨_, rfl⟩, rfl⟩
    | inactive =>
      simp only [hst, KeyMetadata.removeVersion, if_pos hmem] at h
      cases h
      exact Or.inr ⟨rfl, version, rfl, hst, rfl⟩

/-- Every call that ends keeps the objects where they are, whether it returns or raises. -/
theorem Live.step {s s' : Keyczar κ} {op : Op κ} {result : Except PyError Unit} (h : Live s)
    (hs : GenericKeyczar.step C s op = some (result, s')) : Live s' := by
  cases op with
  | addVersion status size generated =>
    rcases addVersion_cases hs with ⟨_, _, rfl⟩ | ⟨_, _, rfl⟩ | ⟨_, _, key, _, rfl⟩
    · exact h
    · exact h.addVersionObject status
    · exact h.addKey status key
  | promote n =>
    rcases promote_cases (Option.some.inj hs) with ⟨_, rfl⟩ | ⟨_, version, hv, ⟨_, rfl⟩ | ⟨_, rfl⟩⟩
    · exact h
    · refine h.of_statuses (by simp) (by simp) ?_
      intro r hr
      cases Option.some.inj hr
      exact h.lt_of_getVersion hv
    · exact h.of_statuses (by simp) (by simp) h.primary_lt
  | demote n =>
    rcases demote_cases (Option.some.inj hs) with ⟨_, rfl⟩ | ⟨_, version, hv, ⟨_, rfl⟩ | ⟨_, rfl⟩⟩
    · exact h
    · exact h.of_statuses (by simp) (by simp) nofun
    · exact h.of_statuses (by simp) (by simp) h.primary_lt
  | revoke n =>
    rcases revoke_cases (Option.some.inj hs) with ⟨_, rfl⟩ | ⟨_, version, hv, _, rfl⟩
    · exact h
    · exact h.erase n

/-- A version that has a key keeps it, and its number. -/
theorem versions_step {s s' : Keyczar κ} {op : Op κ} {result : Except PyError Unit} (h : Live s)
    (hs : GenericKeyczar.step C s op = some (result, s')) {r : Ref} (hr : r ∈ s.versions) :
    r ∈ s'.versions ∧ (s'.heap.object r).versionNumber = (s.heap.object r).versionNumber := by
  have hlt := h.version_lt r hr
  cases op with
  | addVersion status size generated =>
    rcases addVersion_cases hs with ⟨_, _, rfl⟩ | ⟨_, _, rfl⟩ | ⟨_, _, key, _, rfl⟩
    · exact ⟨hr, rfl⟩
    · exact ⟨by rw [versions_addVersionObject]; exact hr, versionNumber_addVersionObject_of_lt hlt status⟩
    · exact ⟨mem_versions_addKey_iff.mpr (Or.inr (by rw [versions_addVersionObject]; exact hr)),
        versionNumber_addVersionObject_of_lt hlt status⟩
  | promote n =>
    rcases promote_cases (Option.some.inj hs) with ⟨_, rfl⟩ | ⟨_, version, _, ⟨_, rfl⟩ | ⟨_, rfl⟩⟩
    · exact ⟨hr, rfl⟩
    · exact ⟨hr, by simp⟩
    · exact ⟨hr, by simp⟩
  | demote n =>
    rcases demote_cases (Option.some.inj hs) with ⟨_, rfl⟩ | ⟨_, version, _, ⟨_, rfl⟩ | ⟨_, rfl⟩⟩
    · exact ⟨hr, rfl⟩
    · exact ⟨hr, by simp⟩
    · exact ⟨hr, by simp⟩
  | revoke n =>
    rcases revoke_cases (Option.some.inj hs) with ⟨_, rfl⟩ | ⟨_, version, _, _, rfl⟩
    · exact ⟨hr, rfl⟩
    · exact ⟨hr, rfl⟩

/-! ## The primary version -/

/-- The primary version is the version of the metadata that has status PRIMARY, and there is none when no version has it. -/
def PrimaryKnown (s : Keyczar κ) : Prop :=
  ∀ r, s.primaryVersion = some r ↔ r ∈ s.metadata.refs ∧ (s.heap.object r).status = .primary

theorem primaryKnown_of_init {accept : KeyPurpose → Bool} {order : DictOrder} {reader : Reader κ} {s : Keyczar κ}
    (h : Keyczar.init C accept order reader = .ok s) : PrimaryKnown s := by
  obtain ⟨l, _, hl⟩ := Keyczar.loaded_of_init h
  intro r
  rw [← hl.perm.mem_iff]
  have hmem : r ∈ s.primaryVersion.toList ↔ r ∈ l.map Prod.fst ∧ (s.heap.object r).status = .primary := by
    rw [← hl.primary_eq, List.mem_filter, decide_eq_true_iff]
  rw [← hmem, Option.mem_toList]

/-- A new version: when it is primary it is the primary version, and the old one is demoted. -/
theorem PrimaryKnown.addKey {s : Keyczar κ} (hp : PrimaryKnown s) (hl : Live s) (status : KeyStatus) (key : κ) :
    PrimaryKnown (addKey C (addVersionObject s status) s.heap.next key) := by
  have hne : s.primaryVersion ≠ some s.heap.next := fun h => Nat.lt_irrefl _ (hl.primary_lt _ h)
  intro r
  rw [hl.mem_refs_addKey_iff]
  show (addVersionObject s status).primaryVersion = some r ↔
    (r = s.heap.next ∨ r ∈ s.metadata.refs) ∧ ((addVersionObject s status).heap.object r).status = .primary
  rw [primaryVersion_addVersionObject]
  by_cases hr : r = s.heap.next
  · subst hr
    rw [status_addVersionObject_self hne]
    by_cases hst : status = .primary
    · simp [hst]
    · simp [hst, hne]
  · have hmem : r ∈ s.metadata.refs → r < s.heap.next := fun h => hl.version_lt r (hl.listed r h)
    by_cases hst : status = .primary
    · rw [if_pos hst]
      constructor
      · intro h
        exact absurd (Option.some.inj h).symm hr
      · rintro ⟨h | h, hs⟩
        · exact absurd h hr
        · rw [status_addVersionObject_of_lt (hmem h)] at hs
          split at hs
          · cases hs
          · rename_i hnot
            exact absurd ⟨hst, (hp r).mpr ⟨h, hs⟩⟩ hnot
    · rw [if_neg hst, hp r]
      constructor
      · rintro ⟨h, hs⟩
        refine ⟨Or.inr h, ?_⟩
        rw [status_addVersionObject_of_lt (hmem h), if_neg fun hc => hst hc.1]
        exact hs
      · rintro ⟨h | h, hs⟩
        · exact absurd h hr
        · rw [status_addVersionObject_of_lt (hmem h), if_neg fun hc => hst hc.1] at hs
          exact ⟨h, hs⟩

/-- Assigning a status other than PRIMARY to a version that is not primary. -/
theorem PrimaryKnown.setStatus {s : Keyczar κ} (hp : PrimaryKnown s) {version : Ref} {status : KeyStatus}
    (hv : (s.heap.object version).status ≠ .primary) (hs : status ≠ .primary) :
    PrimaryKnown { s with heap := s.heap.setStatus version status } := by
  intro r
  show s.primaryVersion = some r ↔ r ∈ s.metadata.refs ∧ ((s.heap.setStatus version status).object r).status = .primary
  rw [hp r, Heap.status_setStatus]
  by_cases hr : r = version
  · subst hr
    simp [hv, hs]
  · rw [if_neg hr]

/-- Promoting an active version. -/
theorem PrimaryKnown.promote {s : Keyczar κ} (hp : PrimaryKnown s) {version : Ref} (hmem : version ∈ s.metadata.refs)
    (hv : (s.heap.object version).status = .active) :
    PrimaryKnown { s with
      heap := (s.heap.setStatus version .primary).setStatusOfSome s.primaryVersion .active
      primaryVersion := some version } := by
  have hne : s.primaryVersion ≠ some version := by
    intro h
    have := ((hp version).mp h).2
    rw [hv] at this
    cases this
  intro r
  show some version = some r ↔ r ∈ s.metadata.refs ∧
    (((s.heap.setStatus version .primary).setStatusOfSome s.primaryVersion .active).object r).status = .primary
  rw [Heap.status_setStatusOfSome, Heap.status_setStatus]
  by_cases hr : r = version
  · subst hr
    simp [hne, hmem]
  · constructor
    · intro h
      exact absurd (Option.some.inj h).symm hr
    · rintro ⟨h, hs⟩
      rw [if_neg hr] at hs
      split at hs
      · cases hs
      · rename_i hnot
        exact absurd ((hp r).mpr ⟨h, hs⟩) hnot

/-- Demoting the primary version. -/
theorem PrimaryKnown.demote {s : Keyczar κ} (hp : PrimaryKnown s) {version : Ref} (hmem : version ∈ s.metadata.refs)
    (hv : (s.heap.object version).status = .primary) :
    PrimaryKnown { s with heap := s.heap.setStatus version .active, primaryVersion := none } := by
  have heq := (hp version).mpr ⟨hmem, hv⟩
  intro r
  show none = some r ↔ r ∈ s.metadata.refs ∧ ((s.heap.setStatus version .active).object r).status = .primary
  rw [Heap.status_setStatus]
  constructor
  · nofun
  · rintro ⟨h, hs⟩
    split at hs
    · cases hs
    · rename_i hr
      have := (hp r).mpr ⟨h, hs⟩
      rw [heq] at this
      exact absurd (Option.some.inj this).symm hr

/-- Revoking an inactive version. -/
theorem PrimaryKnown.erase {s : Keyczar κ} (hp : PrimaryKnown s) {n : Int} {version : Ref}
    (hn : s.metadata.getVersion n = .ok version) (hv : (s.heap.object version).status = .inactive) :
    PrimaryKnown { s with metadata := { s.metadata with versions := s.metadata.versions.erase n } } := by
  intro r
  constructor
  · intro h
    obtain ⟨hmem, hs⟩ := (hp r).mp h
    refine ⟨?_, hs⟩
    obtain ⟨n', hn'⟩ := (s.metadata.mem_refs_iff r).mp hmem
    refine (KeyMetadata.mem_refs_iff _ r).mpr ⟨n', ?_⟩
    rw [AList.lookup_erase_ne]
    · exact hn'
    · rintro rfl
      rw [lookup_of_getVersion hn] at hn'
      cases Option.some.inj hn'
      rw [hv] at hs
      cases hs
  · rintro ⟨h, hs⟩
    exact (hp r).mpr ⟨mem_refs_erase h, hs⟩

/-- A call that returns keeps the primary version known. -/
theorem PrimaryKnown.step {s s' : Keyczar κ} {op : Op κ} (hp : PrimaryKnown s) (hl : Live s)
    (hs : GenericKeyczar.step C s op = some (.ok (), s')) : PrimaryKnown s' := by
  cases op with
  | addVersion status size generated =>
    rcases addVersion_cases hs with ⟨_, ⟨e, he⟩, _⟩ | ⟨_, ⟨e, he⟩, _⟩ | ⟨_, _, key, _, rfl⟩
    · cases he
    · cases he
    · exact hp.addKey hl status key
  | promote n =>
    rcases promote_cases (Option.some.inj hs) with ⟨⟨e, he⟩, _⟩ | ⟨_, version, hv, ⟨hst, rfl⟩ | ⟨hst, rfl⟩⟩
    · cases he
    · exact hp.promote (mem_refs_of_getVersion hv) hst
    · exact hp.setStatus (by rw [hst]; exact nofun) nofun
  | demote n =>
    rcases demote_cases (Option.some.inj hs) with ⟨⟨e, he⟩, _⟩ | ⟨_, version, hv, ⟨hst, rfl⟩ | ⟨hst, rfl⟩⟩
    · cases he
    · exact hp.demote (mem_refs_of_getVersion hv) hst
    · exact hp.setStatus (by rw [hst]; exact nofun) nofun
  | revoke n =>
    rcases revoke_cases (Option.some.inj hs) with ⟨⟨e, he⟩, _⟩ | ⟨_, version, hv, hst, rfl⟩
    · cases he
    · exact hp.erase hv hst

/-! ## Runs of calls that return -/

/-- What holds after every run of calls that return: the objects are where they should be, the primary version is known, and
every number handed out belongs to a version that has a key. -/
structure Lifecycle (assigned : List Int) (s : Keyczar κ) : Prop where
  live : Live s
  primary : PrimaryKnown s
  assigned_mem : ∀ n ∈ assigned, ∃ r ∈ s.versions, (s.heap.object r).versionNumber = n

theorem Lifecycle.step {assigned : List Int} {s s' : Keyczar κ} {op : Op κ} (h : Lifecycle assigned s)
    (hs : GenericKeyczar.step C s op = some (.ok (), s')) : Lifecycle (assigned ++ handedOut s op) s' := by
  refine ⟨h.live.step hs, h.primary.step h.live hs, ?_⟩
  intro n hn
  rcases List.mem_append.mp hn with hn | hn
  · obtain ⟨r, hr, hnum⟩ := h.assigned_mem n hn
    obtain ⟨h1, h2⟩ := versions_step h.live hs hr
    exact ⟨r, h1, h2.trans hnum⟩
  · cases op with
    | addVersion status size generated =>
      rcases addVersion_cases hs with ⟨_, ⟨e, he⟩, _⟩ | ⟨_, ⟨e, he⟩, _⟩ | ⟨_, _, key, _, rfl⟩
      · cases he
      · cases he
      · refine ⟨s.heap.next, mem_versions_addKey_iff.mpr (Or.inl rfl), ?_⟩
        rw [List.mem_singleton.mp hn]
        exact versionNumber_addVersionObject_self s status
    | promote n => cases hn
    | demote n => cases hn
    | revoke n => cases hn

/-- The invariant holds along every run of calls that return, from a key set that `__init__` accepts. -/
theorem lifecycle_of_runs {order : DictOrder} {reader : Reader κ} {s₀ s : Keyczar κ} {assigned : List Int}
    (h₀ : init C order reader = .ok s₀) (h : Runs C s₀ assigned s) : Lifecycle assigned s := by
  induction h with
  | start => exact ⟨live_of_init h₀, primaryKnown_of_init h₀, nofun⟩
  | step op _ hs ih => exact ih.step hs

/-- After every run of calls that return, at most one version of the metadata is primary, the primary version is that one and
`None` when there is none; and a number that `AddVersion` hands out is new: no version of the metadata has it, it was not handed
out before, and the metadata has the new version under it afterwards. -/
theorem primary_unique_and_numbers_fresh (C : KeyClass κ ρ) (order : DictOrder) (reader : Reader κ) (s₀ s : Keyczar κ)
    (assigned : List Int) (h₀ : init C order reader = .ok s₀) (h : Runs C s₀ assigned s) :
    (∀ r ∈ s.metadata.refs, ∀ r' ∈ s.metadata.refs,
      (s.heap.object r).status = .primary → (s.heap.object r').status = .primary → r = r') ∧
    (∀ r, s.primaryVersion = some r ↔ r ∈ s.metadata.refs ∧ (s.heap.object r).status = .primary) ∧
    (s.primaryVersion = none ↔ ∀ r ∈ s.metadata.refs, (s.heap.object r).status ≠ .primary) ∧
    (∀ status size generated s', step C s (.addVersion status size generated) = some (.ok (), s') →
      ∀ n ∈ handedOut s (.addVersion status size generated),
        (∀ r ∈ s.metadata.refs, (s.heap.object r).versionNumber ≠ n) ∧ n ∉ assigned ∧
        (∀ r ∈ s.versions, (s.heap.object r).versionNumber ≠ n) ∧
        ∃ r, s'.metadata.versions.lookup n = some r ∧ (s'.heap.object r).versionNumber = n) := by
  have hinv := lifecycle_of_runs h₀ h
  refine ⟨?_, hinv.primary, ?_, ?_⟩
  · intro r hr r' hr' hs hs'
    have h1 := (hinv.primary r).mpr ⟨hr, hs⟩
    have h2 := (hinv.primary r').mpr ⟨hr', hs'⟩
    rw [h1] at h2
    exact Option.some.inj h2
  · constructor
    · intro hnone r hr hs
      have := (hinv.primary r).mpr ⟨hr, hs⟩
      rw [hnone] at this
      cases this
    · intro hall
      cases hp : s.primaryVersion with
      | none => rfl
      | some r =>
        obtain ⟨hr, hs⟩ := (hinv.primary r).mp hp
        exact absurd hs (hall r hr)
  · intro status size generated s' hs n hn
    cases List.mem_singleton.mp hn
    have hfresh : ∀ r ∈ s.versions, (s.heap.object r).versionNumber ≠ maxVersionNumber s + 1 := by
      intro r hr heq
      have := le_maxVersionNumber hr
      omega
    refine ⟨fun r hr => hfresh r (hinv.live.listed r hr), ?_, hfresh, ?_⟩
    · intro hmem
      obtain ⟨r, hr, hnum⟩ := hinv.assigned_mem _ hmem
      exact hfresh r hr hnum
    · rcases addVersion_cases hs with ⟨_, ⟨e, he⟩, _⟩ | ⟨_, ⟨e, he⟩, _⟩ | ⟨_, _, key, _, rfl⟩
      · cases he
      · cases he
      · refine ⟨s.heap.next, ?_, versionNumber_addVersionObject_self s status⟩
        rw [hinv.live.metadata_addKey]
        exact AList.lookup_insert _

theorem init_smallReader : init (hmacKeys Primitives.plain) asListed smallReader = .ok smallSet := rfl

/-- After the primary version of the small key set is demoted there is none, and the next number is 2. -/
theorem primary_unique_and_numbers_fresh_smallSet :
    ((demote smallSet 1).2.primaryVersion = none ↔
      ∀ r ∈ (demote smallSet 1).2.metadata.refs, ((demote smallSet 1).2.heap.object r).status ≠ .primary) ∧
    (∀ r ∈ (demote smallSet 1).2.metadata.refs, ((demote smallSet 1).2.heap.object r).versionNumber ≠ 2) := by
  have run : Runs (hmacKeys Primitives.plain) smallSet ([] ++ []) (demote smallSet 1).2 := .step (.demote 1) .start rfl
  have h := primary_unique_and_numbers_fresh (hmacKeys Primitives.plain) asListed smallReader smallSet _ _
    init_smallReader run
  exact ⟨h.2.2.1, (h.2.2.2 .active none [.ok otherKey] _ rfl 2 (by decide)).1⟩

/-! ## Calls that raise -/

/-- Everything that can be seen of a key set is the same: the primary version, the metadata, the keys, and each version object
that existed before. -/
structure Unchanged (s s' : Keyczar κ) : Prop where
  primaryVersion_eq : s'.primaryVersion = s.primaryVersion
  metadata_eq : s'.metadata = s.metadata
  keys_eq : s'.keys = s.keys
  object_eq : ∀ r < s.heap.next, s'.heap.object r = s.heap.object r

/-- The call replaces the primary version before a key is generated: it adds a primary version of a valid size. -/
def replacesPrimaryFirst (s : Keyczar κ) : Op κ → Bool
  | .addVersion .primary size _ => s.metadata.type.isValidSize (size.getD s.defaultSize)
  | _ => false

theorem unchanged_self (s : Keyczar κ) : Unchanged s s := ⟨rfl, rfl, rfl, fun _ _ => rfl⟩

/-- The states of every run of calls have their objects where they should be. -/
theorem live_of_reachable {order : DictOrder} {reader : Reader κ} {s₀ s : Keyczar κ} (h₀ : init C order reader = .ok s₀)
    (h : Reachable C s₀ s) : Live s := by
  induction h with
  | start => exact live_of_init h₀
  | step op _ hs ih => exact ih.step hs

/-- A new version object is seen only when it replaces the primary version. -/
theorem unchanged_addVersionObject_iff {s : Keyczar κ} (h : Live s) (status : KeyStatus) :
    Unchanged s (addVersionObject s status) ↔ status ≠ .primary := by
  constructor
  · rintro hu rfl
    have hp := hu.primaryVersion_eq
    rw [primaryVersion_addVersionObject, if_pos rfl] at hp
    exact Nat.lt_irrefl _ (h.primary_lt _ hp.symm)
  · intro hst
    refine ⟨?_, metadata_addVersionObject s status, keys_addVersionObject s status, ?_⟩
    · rw [primaryVersion_addVersionObject, if_neg hst]
    · intro r hr
      unfold addVersionObject
      rw [if_neg hst]
      exact Heap.object_alloc_of_lt hr _

/-- In every reachable state, a call that raises leaves the key set unchanged exactly when it does not replace the primary version
before it generates a key. -/
theorem raising_call_unchanged_iff (C : KeyClass κ ρ) (order : DictOrder) (reader : Reader κ) (s₀ s s' : Keyczar κ) (op : Op κ)
    (e : PyError) (h₀ : init C order reader = .ok s₀) (h : Reachable C s₀ s) (hraise : step C s op = some (.error e, s')) :
    Unchanged s s' ↔ replacesPrimaryFirst s op = false := by
  have hlive := live_of_reachable h₀ h
  cases op with
  | addVersion status size generated =>
    rcases addVersion_cases hraise with ⟨hv, _, rfl⟩ | ⟨hv, _, rfl⟩ | ⟨_, he, _⟩
    · refine iff_of_true (unchanged_self _) ?_
      cases status with
      | primary => exact hv
      | active => rfl
      | inactive => rfl
    · rw [unchanged_addVersionObject_iff hlive]
      cases status with
      | primary => exact iff_of_false (fun h => h rfl) (by simp only [replacesPrimaryFirst, hv]; exact nofun)
      | active => exact iff_of_true nofun rfl
      | inactive => exact iff_of_true nofun rfl
    · cases he
  | promote n =>
    rcases promote_cases (Option.some.inj hraise) with ⟨_, rfl⟩ | ⟨he, _⟩
    · exact iff_of_true (unchanged_self _) rfl
    · cases he
  | demote n =>
    rcases demote_cases (Option.some.inj hraise) with ⟨_, rfl⟩ | ⟨he, _⟩
    · exact iff_of_true (unchanged_self _) rfl
    · cases he
  | revoke n =>
    rcases revoke_cases (Option.some.inj hraise) with ⟨_, rfl⟩ | ⟨he, _⟩
    · exact iff_of_true (unchanged_self _) rfl
    · cases he

/-- Revoking the primary version of the small key set raises and changes nothing. -/
theorem raising_call_unchanged_iff_smallSet : Unchanged smallSet smallSet ↔ replacesPrimaryFirst smallSet (.revoke 1) = false :=
  raising_call_unchanged_iff (hmacKeys Primitives.plain) asListed smallReader smallSet smallSet smallSet (.revoke 1)
    (.keyczarError "Can't revoke key if not inactive.") init_smallReader .start rfl

/-- Adding a primary version to the small key set while its generator raises: the old primary version is demoted, and the primary
version is an object that has no key and is not in the metadata. -/
theorem failed_addVersion_replaces_primary :
    init (hmacKeys Primitives.plain) asListed smallReader = .ok smallSet ∧
    ∃ s', step (hmacKeys Primitives.plain) smallSet (.addVersion .primary none [.error .valueError]) =
        some (.error .valueError, s') ∧
      smallSet.primaryVersion = some 0 ∧ (smallSet.heap.object 0).status = .primary ∧
      s'.primaryVersion = some 1 ∧ (s'.heap.object 0).status = .active ∧ s'.metadata.refs = [0] ∧ s'.versions = [0] ∧
      ¬ Unchanged smallSet s' :=
  ⟨init_smallReader, _, rfl, rfl, rfl, rfl, rfl, rfl, rfl, fun h => nomatch h.primaryVersion_eq⟩

end GenericKeyczar

end Python
