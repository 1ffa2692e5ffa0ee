import Keyczar.Python.Write

/-!
# Loading what was written

The text of the metadata is read back into the same version objects, and a reader that gives back the written keys gives a key set
that `__init__` accepts. Its lookups are those of the key set that was written when the metadata lists every version that has a key
and no two versions with different keys share a hash identifier.
-/

namespace Python

variable {κ ρ : Type} {C : KeyClass κ ρ}

/-! ## Reading the metadata -/

/-- Reading the text of a version object makes an equal object. -/
theorem readVersion_toJson (m : KeyMetadata) (h : Heap) (v : KeyVersion) :
    readVersion (m, h) v.toJson = .ok ((m.addVersion v.versionNumber h.next).1, h.alloc v) := by
  unfold readVersion KeyVersion.toJson
  dsimp only
  rw [getStatus_name]
  rfl

/-- Version objects with different numbers are read into equal objects under their numbers. -/
theorem readVersions_toJson {vs : List KeyVersion} {m : KeyMetadata} {h : Heap} (hf : Fits m h)
    (hnd : (vs.map KeyVersion.versionNumber).Nodup) (hnew : ∀ v ∈ vs, v.versionNumber ∉ m.versions) :
    ∃ versions h', (vs.map KeyVersion.toJson).foldlM readVersion (m, h) = .ok ({ m with versions }, h') ∧
      (∀ v ∈ vs, ∃ r, versions.lookup v.versionNumber = some r ∧ h'.object r = v) ∧
      (∀ n ∉ vs.map KeyVersion.versionNumber, versions.lookup n = m.versions.lookup n) ∧
      (∀ r < h.next, h'.object r = h.object r) := by
  induction vs generalizing m h with
  | nil => exact ⟨m.versions, h, rfl, nofun, fun n _ => rfl, fun r _ => rfl⟩
  | cons v vs ih =>
    rw [List.map_cons, List.nodup_cons] at hnd
    have hread := readVersion_toJson m h v
    have hfits := hf.readVersion hread
    have hadd : (m.addVersion v.versionNumber h.next).1 = { m with versions := m.versions.insert v.versionNumber h.next } := by
      unfold KeyMetadata.addVersion
      rw [if_neg (hnew v (List.mem_cons_self ..))]
    rw [hadd] at hread hfits
    have hnew' : ∀ v' ∈ vs, v'.versionNumber ∉ m.versions.insert v.versionNumber h.next := by
      intro v' hv' hmem
      rcases (AList.mem_insert _).mp hmem with heq | hmem
      · exact hnd.1 (List.mem_map.mpr ⟨v', hv', heq⟩)
      · exact hnew v' (List.mem_cons_of_mem v hv') hmem
    obtain ⟨versions, h', hfold, hvs, hother, hold⟩ := ih hfits hnd.2 hnew'
    refine ⟨versions, h', ?_, ?_, ?_, ?_⟩
    · rw [List.map_cons, List.foldlM_cons, hread]
      exact hfold
    · intro v' hv'
      rcases List.mem_cons.mp hv' with rfl | hv'
      · refine ⟨h.next, ?_, ?_⟩
        · rw [hother _ hnd.1, AList.lookup_insert]
        · rw [hold h.next (Nat.lt_succ_self _), Heap.object_alloc_self]
      · exact hvs v' hv'
    · intro n hn
      rw [List.map_cons, List.mem_cons, not_or] at hn
      rw [hother n hn.2, AList.lookup_insert_ne hn.1]
    · intro r hr
      rw [hold r (Nat.lt_succ_of_lt hr), Heap.object_alloc_of_lt hr]

/-- The text of metadata is read into metadata with equal objects under the same numbers. -/
theorem readMetadata_toJson (order : DictOrder) {m : KeyMetadata} {h : Heap} (hf : Fits m h) :
    ∃ versions h', readMetadata (m.toJson order h) = .ok ({ m with versions }, h') ∧
      ∀ n, (versions.lookup n).map h'.object = (m.versions.lookup n).map h.object := by
  have hnum : ∀ r ∈ m.refs, m.versions.lookup (h.object r).versionNumber = some r := by
    intro r hr
    obtain ⟨n, hn⟩ := (m.mem_refs_iff r).mp hr
    rw [(hf n r hn).2, hn]
  have hnd : (((order.list m.refs).map h.object).map KeyVersion.versionNumber).Nodup := by
    rw [List.map_map]
    refine List.Nodup.map_on ?_ ((order.perm _).nodup_iff.mpr (KeyMetadata.nodup_refs hf))
    intro r hr r' hr' heq
    have h1 := hnum r ((order.perm _).mem_iff.mp hr)
    have h2 := hnum r' ((order.perm _).mem_iff.mp hr')
    have heq' : (h.object r).versionNumber = (h.object r').versionNumber := heq
    rw [heq', h2] at h1
    exact (Option.some.inj h1).symm
  have hfe : Fits { m with versions := ∅ } Heap.empty := fun n r hl => by cases hl
  obtain ⟨versions, h', hfold, hvs, hother, _⟩ := readVersions_toJson hfe hnd fun v _ hmem => AList.notMem_empty _ hmem
  refine ⟨versions, h', ?_, ?_⟩
  · unfold readMetadata KeyMetadata.toJson
    dsimp only
    rw [getPurpose_name, getType_name, Throwing.ok_bind, Throwing.ok_bind]
    rw [List.map_map] at hfold
    exact hfold
  · intro n
    cases hl : m.versions.lookup n with
    | none =>
      rw [hother n]
      · rfl
      · intro hmem
        simp only [List.map_map, List.mem_map, (order.perm _).mem_iff] at hmem
        obtain ⟨r, hr, rfl⟩ := hmem
        have := hnum r hr
        rw [Function.comp_apply] at hl
        rw [hl] at this
        cases this
    | some r =>
      obtain ⟨_, hn⟩ := hf n r hl
      have hr : r ∈ m.refs := (m.mem_refs_iff r).mpr ⟨n, hl⟩
      obtain ⟨r', hr', hobj⟩ := hvs (h.object r) (List.mem_map_of_mem ((order.perm _).mem_iff.mpr hr))
      rw [hn] at hr'
      rw [hr']
      exact congrArg some hobj

/-! ## Constructing a key set again -/

namespace Keyczar

/-- The loop of `__init__` goes through when every key can be read and at most one version is primary. -/
theorem foldlM_loadVersion_ok {reader : Reader κ} {refs : List Ref} {s : Keyczar κ}
    (hkeys : ∀ r ∈ refs, ∃ key, storedKey reader s r = .ok key)
    (hprimary : (s.primaryVersion.toList ++ refs.filter fun r => (s.heap.object r).status = .primary).length ≤ 1) :
    ∃ s', refs.foldlM (loadVersion C reader) s = .ok s' := by
  induction refs generalizing s with
  | nil => exact ⟨s, rfl⟩
  | cons r refs ih =>
    obtain ⟨key, hkey⟩ := hkeys r (List.mem_cons_self ..)
    unfold storedKey at hkey
    have hturn : ∃ t, loadVersion C reader s r = .ok t := by
      unfold loadVersion
      by_cases hp : (s.heap.object r).status = .primary
      · have hnone : s.primaryVersion = none := by
          cases hv : s.primaryVersion with
          | none => rfl
          | some w =>
            rw [hv, List.filter_cons_of_pos (by simpa using hp)] at hprimary
            simp at hprimary
        rw [if_pos hp, hnone, hkey]
        exact ⟨_, rfl⟩
      · rw [if_neg hp, hkey]
        exact ⟨_, rfl⟩
    obtain ⟨t, ht⟩ := hturn
    obtain ⟨key', hload⟩ := loadedFrom_loadVersion ht
    have hrest : ∃ s', refs.foldlM (loadVersion C reader) t = .ok s' := by
      apply ih
      · intro r' hr'
        unfold storedKey
        rw [hload.metadata_eq, hload.heap_eq]
        exact hkeys r' (List.mem_cons_of_mem r hr')
      · rw [← hload.primary_eq, hload.heap_eq, List.append_assoc, ← List.filter_append]
        exact hprimary
    obtain ⟨s', hs'⟩ := hrest
    refine ⟨s', ?_⟩
    rw [List.foldlM_cons, ht]
    exact hs'

/-- What a loaded key set starts from. -/
theorem readMetadata_of_init {accept : KeyPurpose → Bool} {order : DictOrder} {reader : Reader κ} {s : Keyczar κ}
    (h : init C accept order reader = .ok s) : readMetadata reader.metadata = .ok (s.metadata, s.heap) := by
  unfold init at h
  obtain ⟨⟨m, hp⟩, hm, h⟩ := Throwing.ok_of_bind h
  dsimp only at h
  split at h
  · cases h
  · split at h
    · cases h
    · obtain ⟨l, _, hload⟩ := loadedFrom_foldlM h
      rw [hm, hload.metadata_eq, hload.heap_eq]

end Keyczar

namespace GenericKeyczar

/-- `__init__` accepts readable metadata with a key for each version and at most one primary version. -/
theorem init_ok {order : DictOrder} {reader : Reader κ} {m : KeyMetadata} {h : Heap}
    (hm : readMetadata reader.metadata = .ok (m, h)) (hencrypted : m.encrypted = true → reader.isEncryptedReader = true)
    (hkeys : ∀ r ∈ m.refs, ∃ key, reader.getKey m.type (h.object r).versionNumber = .ok key)
    (hprimary : ∀ r ∈ m.refs, ∀ r' ∈ m.refs, (h.object r).status = .primary → (h.object r').status = .primary → r = r') :
    ∃ s, init C order reader = .ok s ∧ s.metadata = m ∧ s.heap = h := by
  have hone : ((order.list m.refs).filter fun r => (h.object r).status = .primary).length ≤ 1 := by
    have hnd : ((order.list m.refs).filter fun r => (h.object r).status = .primary).Nodup :=
      ((order.perm _).nodup_iff.mpr (KeyMetadata.nodup_refs (fits_of_readMetadata hm))).filter _
    have heq : ∀ r ∈ (order.list m.refs).filter (fun r => (h.object r).status = .primary),
        ∀ r' ∈ (order.list m.refs).filter (fun r => (h.object r).status = .primary), r = r' := by
      intro r hr r' hr'
      rw [List.mem_filter, (order.perm _).mem_iff, decide_eq_true_iff] at hr hr'
      exact hprimary r hr.1 r' hr'.1 hr.2 hr'.2
    generalize (order.list m.refs).filter (fun r => (h.object r).status = .primary) = l at hnd heq
    match l with
    | [] => exact Nat.zero_le 1
    | [r] => exact Nat.le_refl 1
    | r :: r' :: l =>
      have := heq r (List.mem_cons_self ..) r' (List.mem_cons_of_mem r (List.mem_cons_self ..))
      subst this
      exact absurd (List.mem_cons_self ..) (List.nodup_cons.mp hnd).1
  have hloop : ∃ s, (order.list m.refs).foldlM (Keyczar.loadVersion C reader)
      { metadata := m, heap := h, keys := ∅, primaryVersion := none, defaultSize := m.type.defaultSize } = .ok s :=
    Keyczar.foldlM_loadVersion_ok (fun r hr => hkeys r ((order.perm _).mem_iff.mp hr)) hone
  obtain ⟨s, hs⟩ := hloop
  have hinit : init C order reader = .ok s := by
    unfold init Keyczar.init
    rw [hm, Throwing.ok_bind]
    dsimp only
    cases hen : m.encrypted with
    | false => exact hs
    | true =>
      rw [hencrypted hen]
      exact hs
  have hread := Keyczar.readMetadata_of_init hinit
  rw [hm] at hread
  obtain ⟨h1, h2⟩ := Prod.mk.inj (Except.ok.inj hread)
  exact ⟨s, hinit, h1.symm, h2.symm⟩

/-! ## Hash entries and version entries -/

/-- The two kinds of entries of the dictionary of keys fit: what a hash identifier finds is the key of some version and has this
identifier, and the identifier of every version's key finds something. `None` finds nothing. -/
structure Entries (C : KeyClass κ ρ) (keys : AList (fun _ : KeyId => κ)) : Prop where
  nameless : keys.lookup .none = none
  sound : ∀ {i key}, keys.lookup (.hash i) = some key → ∃ r, keys.lookup (.version r) = some key ∧ C.hashId key = i
  complete : ∀ {r key}, keys.lookup (.version r) = some key → ∃ key', keys.lookup (.hash (C.hashId key)) = some key'

theorem Entries.empty : Entries C (∅ : AList (fun _ : KeyId => κ)) := ⟨rfl, nofun, nofun⟩

/-- Adding the key of a new version. -/
theorem Entries.addEntries {keys : AList (fun _ : KeyId => κ)} (h : Entries C keys) {r : Ref}
    (hr : keys.lookup (.version r) = none) (key : κ) : Entries C (Keyczar.addEntries C keys r key) := by
  refine ⟨?_, ?_, ?_⟩
  · rw [Keyczar.addEntries, AList.lookup_insert_ne (by simp), AList.lookup_insert_ne (by simp)]
    exact h.nameless
  · intro i found hi
    by_cases hid : i = C.hashId key
    · subst hid
      rw [Keyczar.lookup_addEntries_hash_self] at hi
      cases Option.some.inj hi
      exact ⟨r, Keyczar.lookup_addEntries_version_self keys r key, rfl⟩
    · rw [Keyczar.lookup_addEntries_hash_of_ne _ _ hid] at hi
      obtain ⟨r', hr', hi'⟩ := h.sound hi
      refine ⟨r', ?_, hi'⟩
      rw [Keyczar.lookup_addEntries_version_of_ne]
      · exact hr'
      · rintro rfl
        rw [hr] at hr'
        cases hr'
  · intro r' found hr'
    by_cases hid : C.hashId found = C.hashId key
    · exact ⟨key, by rw [hid, Keyczar.lookup_addEntries_hash_self]⟩
    · rw [Keyczar.lookup_addEntries_hash_of_ne _ _ hid]
      by_cases heq : r' = r
      · subst heq
        rw [Keyczar.lookup_addEntries_version_self] at hr'
        exact absurd (congrArg C.hashId (Option.some.inj hr').symm) hid
      · rw [Keyczar.lookup_addEntries_version_of_ne _ _ heq] at hr'
        exact h.complete hr'

theorem Entries.foldl {l : List (Ref × κ)} {keys : AList (fun _ : KeyId => κ)} (h : Entries C keys)
    (hnd : (l.map Prod.fst).Nodup) (hnew : ∀ p ∈ l, keys.lookup (.version p.1) = none) :
    Entries C (l.foldl (fun d p => Keyczar.addEntries C d p.1 p.2) keys) := by
  induction l generalizing keys with
  | nil => exact h
  | cons p l ih =>
    rw [List.map_cons, List.nodup_cons] at hnd
    refine ih (h.addEntries (hnew p (List.mem_cons_self ..)) p.2) hnd.2 ?_
    intro q hq
    rw [Keyczar.lookup_addEntries_version_of_ne]
    · exact hnew q (List.mem_cons_of_mem p hq)
    · intro heq
      exact hnd.1 (heq ▸ List.mem_map_of_mem hq)

theorem entries_of_init {accept : KeyPurpose → Bool} {order : DictOrder} {reader : Reader κ} {s : Keyczar κ}
    (h : Keyczar.init C accept order reader = .ok s) : Entries C s.keys := by
  obtain ⟨l, _, hl⟩ := Keyczar.loaded_of_init h
  rw [hl.keys_eq]
  exact Entries.empty.foldl (hl.perm.nodup_iff.mpr (KeyMetadata.nodup_refs hl.fits)) fun p _ => rfl

/-- A loaded key set has keys for the versions of its metadata and no others. -/
theorem mem_refs_of_init {accept : KeyPurpose → Bool} {order : DictOrder} {reader : Reader κ} {s : Keyczar κ}
    (h : Keyczar.init C accept order reader = .ok s) {r : Ref} (hr : r ∈ s.versions) : r ∈ s.metadata.refs := by
  obtain ⟨l, _, hl⟩ := Keyczar.loaded_of_init h
  obtain ⟨key, hkey⟩ := mem_versions_iff.mp hr
  by_contra hmem
  rw [hl.keys_eq, Keyczar.lookup_version_foldl fun hl' => hmem (hl.perm.mem_iff.mp hl')] at hkey
  cases hkey

/-- No two versions with different keys share a hash identifier. -/
def NoClash (C : KeyClass κ ρ) (keys : AList (fun _ : KeyId => κ)) : Prop :=
  ∀ r r' key key', keys.lookup (.version r) = some key → keys.lookup (.version r') = some key' →
    C.hashId key = C.hashId key' → key = key'

/-- Without clashes, the identifier of a version's key finds this key. -/
theorem Entries.lookup_hash {keys : AList (fun _ : KeyId => κ)} (h : Entries C keys) (hc : NoClash C keys) {r : Ref} {key : κ}
    (hr : keys.lookup (.version r) = some key) : keys.lookup (.hash (C.hashId key)) = some key := by
  obtain ⟨found, hfound⟩ := h.complete hr
  obtain ⟨r', hr', hid⟩ := h.sound hfound
  rw [hfound, hc r' r found key hr' hr hid]

/-! ## The same lookups -/

/-- The key of the version with a number. -/
def keyOfNumber (s : Keyczar κ) (versionNumber : Int) : Except PyError κ := do
  let version ← s.metadata.getVersion versionNumber
  s.getKey (.version version)

/-- Two key sets that answer every lookup alike: of the version with a number, of its key, of the key with a hash identifier and of
the primary key. -/
structure SameLookups (s s' : Keyczar κ) : Prop where
  version : ∀ n, (s'.metadata.getVersion n).map s'.heap.object = (s.metadata.getVersion n).map s.heap.object
  number : ∀ n, keyOfNumber s' n = keyOfNumber s n
  hash : ∀ i, s'.getKey (.hash i) = s.getKey (.hash i)
  primary : s'.primaryKey = s.primaryKey

/-- One key set has equal version objects under the numbers of another, with the same keys. -/
structure Copy (s s' : Keyczar κ) : Prop where
  object : ∀ n, (s'.metadata.versions.lookup n).map s'.heap.object = (s.metadata.versions.lookup n).map s.heap.object
  key : ∀ {n r r'}, s.metadata.versions.lookup n = some r → s'.metadata.versions.lookup n = some r' →
    s'.keys.lookup (.version r') = s.keys.lookup (.version r)

/-- The copy of a version. -/
theorem Copy.exists_version {s s' : Keyczar κ} (h : Copy s s') {n : Int} {r : Ref}
    (hr : s.metadata.versions.lookup n = some r) :
    ∃ r', s'.metadata.versions.lookup n = some r' ∧ s'.heap.object r' = s.heap.object r ∧
      s'.keys.lookup (.version r') = s.keys.lookup (.version r) := by
  have hobj := h.object n
  rw [hr] at hobj
  cases hr' : s'.metadata.versions.lookup n with
  | none =>
    rw [hr'] at hobj
    cases hobj
  | some r' =>
    rw [hr'] at hobj
    exact ⟨r', rfl, Option.some.inj hobj, h.key hr hr'⟩

theorem Copy.symm {s s' : Keyczar κ} (h : Copy s s') : Copy s' s :=
  ⟨fun n => (h.object n).symm, fun hr hr' => (h.key hr' hr).symm⟩

/-- What is needed of a key set to compare it with a copy: the objects and the primary version are where they should be, the
metadata lists exactly the versions that have a key, and the entries fit. -/
structure Mirrored (C : KeyClass κ ρ) (s : Keyczar κ) : Prop where
  live : Live s
  primary : PrimaryKnown s
  listed : ∀ r ∈ s.versions, r ∈ s.metadata.refs
  entries : Entries C s.keys

theorem mirrored_of_init {order : DictOrder} {reader : Reader κ} {s : Keyczar κ} (h : init C order reader = .ok s) :
    Mirrored C s :=
  ⟨live_of_init h, primaryKnown_of_init h, fun _ hr => mem_refs_of_init h hr, entries_of_init h⟩

/-- The key that a hash identifier finds belongs to a version of the metadata. -/
theorem Mirrored.version_of_hash {s : Keyczar κ} (h : Mirrored C s) {i : Bytes} {key : κ}
    (hi : s.keys.lookup (.hash i) = some key) :
    ∃ n r, s.metadata.versions.lookup n = some r ∧ s.keys.lookup (.version r) = some key ∧ C.hashId key = i := by
  obtain ⟨r, hr, hid⟩ := h.entries.sound hi
  obtain ⟨n, hn⟩ := (s.metadata.mem_refs_iff r).mp (h.listed r (mem_versions_iff.mpr ⟨key, hr⟩))
  exact ⟨n, r, hn, hr, hid⟩

theorem Mirrored.key_of_version {s : Keyczar κ} (h : Mirrored C s) {n : Int} {r : Ref}
    (hr : s.metadata.versions.lookup n = some r) : ∃ key, s.keys.lookup (.version r) = some key :=
  mem_versions_iff.mp (h.live.listed r ((s.metadata.mem_refs_iff r).mpr ⟨n, hr⟩))

/-- What a hash identifier finds in a copy, it finds in the key set, when there are no clashes in it. -/
theorem Copy.lookup_hash {s s' : Keyczar κ} (h : Copy s s') (hs : Mirrored C s) (hs' : Mirrored C s')
    (hc : NoClash C s.keys) {i : Bytes} {key : κ} (hi : s'.keys.lookup (.hash i) = some key) :
    s.keys.lookup (.hash i) = some key := by
  obtain ⟨n, r', hr', hkey, hid⟩ := hs'.version_of_hash hi
  obtain ⟨r, _, _, hk⟩ := h.symm.exists_version hr'
  rw [hkey] at hk
  rw [← hid]
  exact hs.entries.lookup_hash hc hk

/-- The primary version of a key set has a copy, which is the primary version of the copy. -/
theorem Copy.primaryVersion {s s' : Keyczar κ} (h : Copy s s') (hs : PrimaryKnown s) (hs' : PrimaryKnown s') {r : Ref}
    (hr : s.primaryVersion = some r) :
    ∃ r', s'.primaryVersion = some r' ∧ s'.keys.lookup (.version r') = s.keys.lookup (.version r) := by
  obtain ⟨hmem, hst⟩ := (hs r).mp hr
  obtain ⟨n, hn⟩ := (s.metadata.mem_refs_iff r).mp hmem
  obtain ⟨r', hr', hobj, hkey⟩ := h.exists_version hn
  exact ⟨r', (hs' r').mpr ⟨(s'.metadata.mem_refs_iff r').mpr ⟨n, hr'⟩, by rw [hobj, hst]⟩, hkey⟩

theorem Copy.primaryKey {s s' : Keyczar κ} (h : Copy s s') (hs : Mirrored C s) (hs' : Mirrored C s') :
    s'.primaryKey = s.primaryKey := by
  unfold Keyczar.primaryKey
  cases hp : s.primaryVersion with
  | some r =>
    obtain ⟨r', hr', hkey⟩ := h.primaryVersion hs.primary hs'.primary hp
    obtain ⟨key, hk⟩ := mem_versions_iff.mp (hs.live.listed r ((hs.primary r).mp hp).1)
    rw [hr']
    dsimp only
    rw [Keyczar.getKey_eq_ok_iff.mpr hk, Keyczar.getKey_eq_ok_iff.mpr (hkey.trans hk)]
  | none =>
    cases hp' : s'.primaryVersion with
    | some r' =>
      obtain ⟨r, hr, _⟩ := h.symm.primaryVersion hs'.primary hs.primary hp'
      rw [hp] at hr
      cases hr
    | none =>
      dsimp only
      unfold Keyczar.getKey
      rw [hs.entries.nameless, hs'.entries.nameless]

/-- A copy of a key set without clashes has the same lookups. -/
theorem Copy.sameLookups {s s' : Keyczar κ} (h : Copy s s') (hs : Mirrored C s) (hs' : Mirrored C s')
    (hc : NoClash C s.keys) : SameLookups s s' := by
  refine ⟨?_, ?_, ?_, h.primaryKey hs hs'⟩
  · intro n
    have hobj := h.object n
    unfold KeyMetadata.getVersion
    cases hr : s.metadata.versions.lookup n with
    | none =>
      rw [hr, Option.map_none, Option.map_eq_none_iff] at hobj
      rw [hobj]
      rfl
    | some r =>
      obtain ⟨r', hr', hobj', _⟩ := h.exists_version hr
      rw [hr']
      exact congrArg Except.ok hobj'
  · intro n
    unfold keyOfNumber KeyMetadata.getVersion
    cases hr : s.metadata.versions.lookup n with
    | none =>
      have hobj := h.object n
      rw [hr, Option.map_none, Option.map_eq_none_iff] at hobj
      rw [hobj]
      rfl
    | some r =>
      obtain ⟨r', hr', _, hkey⟩ := h.exists_version hr
      obtain ⟨key, hk⟩ := hs.key_of_version hr
      rw [hr', Throwing.ok_bind, Throwing.ok_bind, Keyczar.getKey_eq_ok_iff.mpr hk]
      exact Keyczar.getKey_eq_ok_iff.mpr (hkey.trans hk)
  · intro i
    unfold Keyczar.getKey
    cases hi' : s'.keys.lookup (.hash i) with
    | some key => rw [h.lookup_hash hs hs' hc hi']
    | none =>
      cases hi : s.keys.lookup (.hash i) with
      | none => rfl
      | some key =>
        obtain ⟨n, r, hr, hkey, hid⟩ := hs.version_of_hash hi
        obtain ⟨r', _, _, hk⟩ := h.exists_version hr
        obtain ⟨found, hfound⟩ := hs'.entries.complete (hk.trans hkey)
        rw [hid, hi'] at hfound
        cases hfound
/-- A loaded key set has the key that the reader gave for each version. -/
theorem lookup_version_of_init {accept : KeyPurpose → Bool} {order : DictOrder} {reader : Reader κ} {s : Keyczar κ}
    (h : Keyczar.init C accept order reader = .ok s) {r : Ref} (hr : r ∈ s.metadata.refs) {key : κ}
    (hkey : reader.getKey s.metadata.type (s.heap.object r).versionNumber = .ok key) :
    s.keys.lookup (.version r) = some key := by
  obtain ⟨l, _, hl⟩ := Keyczar.loaded_of_init h
  obtain ⟨p, hp, rfl⟩ := List.mem_map.mp (hl.perm.mem_iff.mpr hr)
  have hstored := hl.stored p hp
  unfold Keyczar.storedKey at hstored
  rw [hkey] at hstored
  rw [hl.keys_eq, Except.ok.inj hstored]
  exact Keyczar.lookup_version_of_mem (hl.perm.nodup_iff.mpr (KeyMetadata.nodup_refs hl.fits)) hp

/-- A reader of what was written gives a copy of the key set. -/
theorem reload_ok {s : Keyczar κ} (hs : Mirrored C s) {order : DictOrder} {encrypted : Bool} {w : Written κ}
    (hw : (write order s encrypted).1 = .ok w) {reader : Reader κ} (hread : w.ReadBy reader) (order' : DictOrder) :
    ∃ s', init C order' reader = .ok s' ∧ Copy s s' := by
  obtain ⟨w', hw', hmeta, hmem⟩ := write_spec order s encrypted
  cases Except.ok.inj (hw.symm.trans hw')
  have hfit : Fits { s.metadata with encrypted } s.heap := hs.live.fits
  obtain ⟨versions, h', hreadm, hobj⟩ := readMetadata_toJson order hfit
  have hm : readMetadata reader.metadata = .ok ({ s.metadata with encrypted, versions }, h') := by
    rw [hread.metadata_eq, hmeta]
    exact hreadm
  have htype : getType w.metadata.type = .ok s.metadata.type := by
    rw [hmeta]
    exact getType_name _
  -- the version that each object read was written from
  have hfrom : ∀ {n r'}, versions.lookup n = some r' → ∃ r key, s.metadata.versions.lookup n = some r ∧
      s.heap.object r = h'.object r' ∧ s.keys.lookup (.version r) = some key ∧ reader.getKey s.metadata.type n = .ok key := by
    intro n r' hr'
    have ho := hobj n
    rw [hr'] at ho
    cases hr : s.metadata.versions.lookup n with
    | none =>
      rw [hr] at ho
      cases ho
    | some r =>
      rw [hr] at ho
      obtain ⟨key, hkey⟩ := hs.key_of_version hr
      refine ⟨r, key, rfl, (Option.some.inj ho).symm, hkey, ?_⟩
      refine hread.getKey htype (n, key) ((hmem _).mpr ⟨r, mem_versions_iff.mpr ⟨key, hkey⟩, ?_, ?_⟩)
      · exact (hs.live.fits n r hr).2
      · exact Keyczar.getKey_eq_ok_iff.mpr hkey
  have hfits : Fits { s.metadata with encrypted, versions } h' := fits_of_readMetadata hm
  have hinit : ∃ s', init C order' reader = .ok s' ∧ s'.metadata = { s.metadata with encrypted, versions } ∧ s'.heap = h' := by
    refine init_ok hm ?_ ?_ ?_
    · intro hen
      exact hread.encrypted (by rw [hmeta]; exact hen)
    · intro r' hr'
      obtain ⟨n, hn⟩ := (KeyMetadata.mem_refs_iff _ r').mp hr'
      obtain ⟨_, key, _, _, _, hkey⟩ := hfrom hn
      exact ⟨key, by rw [(hfits n r' hn).2]; exact hkey⟩
    · intro r₁ h₁ r₂ h₂ hp₁ hp₂
      obtain ⟨n₁, hn₁⟩ := (KeyMetadata.mem_refs_iff _ r₁).mp h₁
      obtain ⟨n₂, hn₂⟩ := (KeyMetadata.mem_refs_iff _ r₂).mp h₂
      obtain ⟨t₁, _, hl₁, ho₁, _, _⟩ := hfrom hn₁
      obtain ⟨t₂, _, hl₂, ho₂, _, _⟩ := hfrom hn₂
      have hprim₁ := (hs.primary t₁).mpr ⟨(s.metadata.mem_refs_iff t₁).mpr ⟨n₁, hl₁⟩, by rw [ho₁, hp₁]⟩
      have hprim₂ := (hs.primary t₂).mpr ⟨(s.metadata.mem_refs_iff t₂).mpr ⟨n₂, hl₂⟩, by rw [ho₂, hp₂]⟩
      have ht : t₁ = t₂ := Option.some.inj (hprim₁.symm.trans hprim₂)
      have hn : n₁ = n₂ := by rw [← (hs.live.fits n₁ t₁ hl₁).2, ← (hs.live.fits n₂ t₂ hl₂).2, ht]
      rw [hn, hn₂] at hn₁
      exact (Option.some.inj hn₁).symm
  obtain ⟨s', hs', hmeta', hheap'⟩ := hinit
  refine ⟨s', hs', ⟨?_, ?_⟩⟩
  · intro n
    rw [hmeta', hheap']
    exact hobj n
  · intro n r r' hr hr'
    have hl' : versions.lookup n = some r' := by
      rw [hmeta'] at hr'
      exact hr'
    obtain ⟨t, key, ht, _, hkey, hget⟩ := hfrom hl'
    rw [hr] at ht
    cases Option.some.inj ht
    rw [hkey]
    refine lookup_version_of_init hs' ((KeyMetadata.mem_refs_iff _ r').mpr ⟨n, hr'⟩) ?_
    rw [hmeta', hheap', (hfits n r' hl').2]
    exact hget

/-- The order that lists one version last. -/
def listedLast (r : Ref) : DictOrder where
  list l := if r ∈ l then l.erase r ++ [r] else l
  perm l := by
    split
    · rename_i h
      exact (List.perm_append_comm).trans (List.perm_cons_erase h).symm
    · exact List.Perm.refl l

/-- A version that is loaded last is found by its hash identifier. -/
theorem lookup_hash_of_listedLast {reader : Reader κ} {s : Keyczar κ} {r : Ref} {key : κ}
    (h : init C (listedLast r) reader = .ok s) (hr : r ∈ s.metadata.refs) (hkey : s.keys.lookup (.version r) = some key) :
    s.keys.lookup (.hash (C.hashId key)) = some key := by
  obtain ⟨l, hl, hload⟩ := Keyczar.loaded_of_init h
  have hlast : l.map Prod.fst = s.metadata.refs.erase r ++ [r] := hl.trans (if_pos hr)
  obtain ⟨l₁, l₂, rfl, _, h₂⟩ := List.map_eq_append_iff.mp hlast
  obtain ⟨p, rfl, hp⟩ := List.map_eq_singleton_iff.mp h₂
  have hpkey : s.keys.lookup (.version p.1) = some p.2 := by
    rw [hload.keys_eq]
    exact Keyczar.lookup_version_of_mem (hload.perm.nodup_iff.mpr (KeyMetadata.nodup_refs hload.fits)) (by simp)
  rw [hp, hkey] at hpkey
  cases Option.some.inj hpkey
  rw [hload.keys_eq, Keyczar.lookup_hash_foldl, List.reverse_append, List.reverse_singleton, List.singleton_append,
    List.find?_cons_of_pos (by simp)]
  rfl

end GenericKeyczar

end Python
