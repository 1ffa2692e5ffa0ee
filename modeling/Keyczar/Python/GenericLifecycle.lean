import Keyczar.Lib.Registry
import Keyczar.Python.Reload

/-!
# The lifecycle of a key set in `GenericKeyczar`

The metadata, the version objects and the primary version are a registry of version objects: a call raises exactly when the registry
refuses it, and else takes the same step.
-/

namespace Python

/-- The status of a version in its lifecycle. -/
def KeyStatus.lifecycle : KeyStatus → Lifecycle.Status
  | .primary => .primary
  | .active => .active
  | .inactive => .inactive

theorem KeyStatus.lifecycle_eq_primary_iff (status : KeyStatus) : status.lifecycle = .primary ↔ status = .primary := by
  cases status <;> decide

namespace GenericKeyczar

variable {κ ρ : Type} {C : KeyClass κ ρ}

/-- The registry of the version objects of a key set. -/
def registry (s : Keyczar κ) : Lifecycle.Registry Ref where
  find n := s.metadata.versions.lookup n
  number r := (s.heap.object r).versionNumber
  status r := (s.heap.object r).status.lifecycle
  primary := s.primaryVersion
  next := maxVersionNumber s + 1

/-- A version is in the metadata when it is found under its number. -/
theorem Live.mem_refs_iff {s : Keyczar κ} (h : Live s) (r : Ref) :
    r ∈ s.metadata.refs ↔ s.metadata.versions.lookup (s.heap.object r).versionNumber = some r := by
  rw [KeyMetadata.mem_refs_iff]
  constructor
  · rintro ⟨n, hn⟩
    rw [(h.fits n r hn).2]
    exact hn
  · exact fun hr => ⟨_, hr⟩

theorem Live.wellformed {s : Keyczar κ} (h : Live s) (hp : PrimaryKnown s) : (registry s).Wellformed := by
  refine ⟨fun hr => (h.fits _ _ hr).2, ?_, ?_⟩
  · intro r
    exact (hp r).trans (and_congr (h.mem_refs_iff r) (KeyStatus.lifecycle_eq_primary_iff _).symm)
  · intro n r hr
    have hle := le_maxVersionNumber (h.listed r ((s.metadata.mem_refs_iff r).mpr ⟨n, hr⟩))
    rw [(h.fits n r hr).2] at hle
    exact Int.lt_add_one_of_le hle

/-! ## Statuses -/

theorem maxVersionNumber_congr {s s' : Keyczar κ} (hkeys : s'.keys = s.keys)
    (hnumber : ∀ r, (s'.heap.object r).versionNumber = (s.heap.object r).versionNumber) : maxVersionNumber s' = maxVersionNumber s := by
  unfold maxVersionNumber Keyczar.versions
  simp only [hkeys, hnumber]

theorem registry_setStatus (s : Keyczar κ) (r : Ref) (status : KeyStatus) :
    registry { s with heap := s.heap.setStatus r status } = (registry s).setStatus r status.lifecycle := by
  refine Lifecycle.Registry.ext rfl ?_ ?_ rfl ?_
  · funext r'
    exact Heap.versionNumber_setStatus s.heap r r' status
  · funext r'
    by_cases hr : r' = r <;> simp [hr, registry, Lifecycle.Registry.setStatus, Heap.status_setStatus]
  · exact congrArg (· + 1) (maxVersionNumber_congr rfl fun r' => Heap.versionNumber_setStatus s.heap r r' status)

theorem registry_makePrimary {s : Keyczar κ} {r : Ref} (hr : s.primaryVersion ≠ some r) :
    registry { s with
      heap := (s.heap.setStatus r .primary).setStatusOfSome s.primaryVersion .active
      primaryVersion := some r } = (registry s).makePrimary r := by
  refine Lifecycle.Registry.ext rfl ?_ ?_ rfl ?_
  · funext r'
    simp [registry, Lifecycle.Registry.makePrimary]
  · funext r'
    by_cases hr' : r' = r
    · subst hr'
      simp [registry, Lifecycle.Registry.makePrimary, Heap.status_setStatusOfSome, Heap.status_setStatus, hr, KeyStatus.lifecycle]
    · simp only [registry, Lifecycle.Registry.makePrimary, Heap.status_setStatusOfSome, Heap.status_setStatus, if_neg hr']
      exact apply_ite _ _ _ _
  · exact congrArg (· + 1) (maxVersionNumber_congr rfl fun r' => by simp)

theorem registry_clearPrimary (s : Keyczar κ) (r : Ref) :
    registry { s with heap := s.heap.setStatus r .active, primaryVersion := none } = (registry s).clearPrimary r := by
  exact congrArg (fun g : Lifecycle.Registry Ref => { g with primary := none }) (registry_setStatus s r .active)

theorem registry_erase (s : Keyczar κ) (n : Int) :
    registry { s with metadata := { s.metadata with versions := s.metadata.versions.erase n } } = (registry s).remove n := by
  refine Lifecycle.Registry.ext ?_ rfl rfl rfl rfl
  funext n'
  by_cases hn : n' = n
  · subst hn
    simp [registry, Lifecycle.Registry.remove]
  · simp [registry, Lifecycle.Registry.remove, hn, AList.lookup_erase_ne hn]

theorem getVersion_of_lookup {m : KeyMetadata} {n : Int} {r : Ref} (h : m.versions.lookup n = some r) : m.getVersion n = .ok r := by
  unfold KeyMetadata.getVersion
  rw [h]

theorem getVersion_of_none {m : KeyMetadata} {n : Int} (h : m.versions.lookup n = none) : ∃ e, m.getVersion n = .error e := by
  unfold KeyMetadata.getVersion
  rw [h]
  exact ⟨_, rfl⟩

/-- `Promote` raises exactly when the registry refuses, and then changes nothing. -/
theorem promote_registry {s : Keyczar κ} (h : (registry s).Wellformed) (n : Int) :
    match (registry s).promote n with
    | some g => (promote s n).1 = .ok () ∧ registry (promote s n).2 = g
    | none => ∃ e, promote s n = (.error e, s) := by
  unfold Lifecycle.Registry.promote promote
  cases hv : s.metadata.versions.lookup n with
  | none =>
    obtain ⟨e, he⟩ := getVersion_of_none hv
    simp [registry, hv, he]
  | some r =>
    have hfind : (registry s).find n = some r := hv
    rw [hfind, getVersion_of_lookup hv]
    cases hst : (s.heap.object r).status with
    | primary => simp [registry, hst, KeyStatus.lifecycle]
    | inactive =>
      have hset := registry_setStatus s r .active
      simpa [registry, hst, KeyStatus.lifecycle] using hset
    | active =>
      have hne : s.primaryVersion ≠ some r := by
        intro hp
        have hp := ((h.primary_iff r).mp hp).2
        simp [registry, hst, KeyStatus.lifecycle] at hp
      have hmake := registry_makePrimary hne
      simpa [registry, hst, KeyStatus.lifecycle] using hmake

/-- `Demote` likewise. -/
theorem demote_registry (s : Keyczar κ) (n : Int) :
    match (registry s).demote n with
    | some g => (demote s n).1 = .ok () ∧ registry (demote s n).2 = g
    | none => ∃ e, demote s n = (.error e, s) := by
  unfold Lifecycle.Registry.demote demote
  cases hv : s.metadata.versions.lookup n with
  | none =>
    obtain ⟨e, he⟩ := getVersion_of_none hv
    simp [registry, hv, he]
  | some r =>
    have hfind : (registry s).find n = some r := hv
    rw [hfind, getVersion_of_lookup hv]
    cases hst : (s.heap.object r).status with
    | inactive => simp [registry, hst, KeyStatus.lifecycle]
    | primary =>
      have hclear := registry_clearPrimary s r
      simpa [registry, hst, KeyStatus.lifecycle] using hclear
    | active =>
      have hset := registry_setStatus s r .inactive
      simpa [registry, hst, KeyStatus.lifecycle] using hset

/-- `Revoke` likewise. -/
theorem revoke_registry (s : Keyczar κ) (n : Int) :
    match (registry s).revoke n with
    | some g => (revoke s n).1 = .ok () ∧ registry (revoke s n).2 = g
    | none => ∃ e, revoke s n = (.error e, s) := by
  unfold Lifecycle.Registry.revoke revoke
  cases hv : s.metadata.versions.lookup n with
  | none =>
    obtain ⟨e, he⟩ := getVersion_of_none hv
    simp [registry, hv, he]
  | some r =>
    have hfind : (registry s).find n = some r := hv
    rw [hfind, getVersion_of_lookup hv]
    cases hst : (s.heap.object r).status with
    | primary => simp [registry, hst, KeyStatus.lifecycle]
    | active => simp [registry, hst, KeyStatus.lifecycle]
    | inactive =>
      have hmem : n ∈ s.metadata.versions := AList.lookup_isSome.mp (Option.isSome_iff_exists.mpr ⟨r, hv⟩)
      have herase := registry_erase s n
      simpa [registry, hst, KeyStatus.lifecycle, KeyMetadata.removeVersion, hmem] using herase

/-! ## New versions -/

/-- The largest number after a version was added. -/
theorem Live.maxVersionNumber_addKey {s : Keyczar κ} (h : Live s) (status : KeyStatus) (key : κ) :
    maxVersionNumber (GenericKeyczar.addKey C (GenericKeyczar.addVersionObject s status) s.heap.next key) = maxVersionNumber s + 1 := by
  set s' := GenericKeyczar.addKey C (GenericKeyczar.addVersionObject s status) s.heap.next key with hs'
  have hmem : ∀ r, r ∈ s'.versions ↔ r = s.heap.next ∨ r ∈ s.versions := by
    intro r
    rw [hs', mem_versions_addKey_iff, versions_addVersionObject]
  have hnew : (s'.heap.object s.heap.next).versionNumber = maxVersionNumber s + 1 := versionNumber_addVersionObject_self s status
  have hold : ∀ r ∈ s.versions, (s'.heap.object r).versionNumber = (s.heap.object r).versionNumber :=
    fun r hr => versionNumber_addVersionObject_of_lt (h.version_lt r hr) status
  refine Int.le_antisymm ?_ ?_
  · have hzero : 0 ≤ maxVersionNumber s := (Lifecycle.le_foldl_max _ s.versions 0).1
    rcases Lifecycle.foldl_max_mem (fun r => (s'.heap.object r).versionNumber) s'.versions 0 with heq | ⟨r, hr, heq⟩
    · have hmax : maxVersionNumber s' = 0 := heq
      omega
    · have hmax : (s'.heap.object r).versionNumber = maxVersionNumber s' := heq
      rcases (hmem r).mp hr with rfl | hr
      · omega
      · have hle := le_maxVersionNumber hr
        have hsame := hold r hr
        omega
  · rw [← hnew]
    exact le_maxVersionNumber ((hmem _).mpr (Or.inl rfl))

/-- `AddVersion` of a key adds a new object to the registry. -/
theorem Live.registry_addKey {s : Keyczar κ} (h : Live s) (status : KeyStatus) (key : κ) :
    registry (GenericKeyczar.addKey C (GenericKeyczar.addVersionObject s status) s.heap.next key) =
      (registry s).add s.heap.next status.lifecycle := by
  have hmax := h.maxVersionNumber_addKey (C := C) status key
  have hmeta := h.metadata_addKey (C := C) status key
  have hfind : (registry (GenericKeyczar.addKey C (GenericKeyczar.addVersionObject s status) s.heap.next key)).find =
      Function.update (registry s).find (maxVersionNumber s + 1) (some s.heap.next) := by
    funext n
    show (GenericKeyczar.addKey C _ _ _).metadata.versions.lookup n = _
    rw [hmeta]
    by_cases hn : n = maxVersionNumber s + 1
    · subst hn
      simp
    · simp [hn, AList.lookup_insert_ne hn, registry]
  have hne : s.primaryVersion ≠ some s.heap.next := fun hp => Nat.lt_irrefl _ (h.primary_lt _ hp)
  have hobject : ∀ r ≠ s.heap.next, (s.heap.alloc ⟨maxVersionNumber s + 1, status, false⟩).object r = s.heap.object r :=
    fun r hr => Function.update_of_ne hr _ _
  unfold Lifecycle.Registry.add
  by_cases hst : status = .primary
  · subst hst
    rw [if_pos (show KeyStatus.lifecycle .primary = .primary from rfl)]
    refine Lifecycle.Registry.ext hfind ?_ ?_ rfl (congrArg (· + 1) hmax)
    · funext r
      by_cases hr : r = s.heap.next
      · subst hr
        simp [registry, GenericKeyczar.addKey, GenericKeyczar.addVersionObject, Lifecycle.Registry.makePrimary, Lifecycle.Registry.insert]
      · simp [registry, GenericKeyczar.addKey, GenericKeyczar.addVersionObject, Lifecycle.Registry.makePrimary, Lifecycle.Registry.insert, hr,
          hobject r hr]
    · funext r
      by_cases hr : r = s.heap.next
      · subst hr
        simp [registry, GenericKeyczar.addKey, GenericKeyczar.addVersionObject, Lifecycle.Registry.makePrimary, Heap.status_setStatusOfSome, hne,
          KeyStatus.lifecycle]
      · simp only [registry, GenericKeyczar.addKey, GenericKeyczar.addVersionObject, Lifecycle.Registry.makePrimary, Lifecycle.Registry.insert, hr,
          if_true, if_false, Heap.status_setStatusOfSome, hobject r hr, Function.update_of_ne hr]
        exact apply_ite _ _ _ _
  · rw [if_neg fun hc => hst ((KeyStatus.lifecycle_eq_primary_iff status).mp hc)]
    refine Lifecycle.Registry.ext hfind ?_ ?_ ?_ (congrArg (· + 1) hmax)
    · funext r
      by_cases hr : r = s.heap.next
      · subst hr
        simp [registry, GenericKeyczar.addKey, GenericKeyczar.addVersionObject, Lifecycle.Registry.insert, hst]
      · simp [registry, GenericKeyczar.addKey, GenericKeyczar.addVersionObject, Lifecycle.Registry.insert, hst, hr, hobject r hr]
    · funext r
      by_cases hr : r = s.heap.next
      · subst hr
        simp [registry, GenericKeyczar.addKey, GenericKeyczar.addVersionObject, Lifecycle.Registry.insert, hst]
      · simp [registry, GenericKeyczar.addKey, GenericKeyczar.addVersionObject, Lifecycle.Registry.insert, hst, hr, hobject r hr]
    · simp [registry, GenericKeyczar.addKey, GenericKeyczar.addVersionObject, Lifecycle.Registry.insert, hst]

/-- `AddVersion` returns when a key comes that is not in use. -/
theorem Live.addVersion_registry {s : Keyczar κ} (h : Live s) {status : KeyStatus} {size : Option Int}
    {generated : List (Except PyError κ)} {key : κ}
    (hkey : genUnusedKey C s.keys s.metadata.type (size.getD s.defaultSize) generated = some (.ok key)) :
    ∃ s', GenericKeyczar.addVersion C s status size generated = some (.ok (), s') ∧
      registry s' = (registry s).add s.heap.next status.lifecycle := by
  refine ⟨_, ?_, h.registry_addKey (C := C) status key⟩
  have hvalid : s.metadata.type.isValidSize (size.getD s.defaultSize) = true := by
    by_contra hinvalid
    rw [Bool.not_eq_true] at hinvalid
    cases generated <;> simp [genUnusedKey, checkGenKey, hinvalid] at hkey
  simp [GenericKeyczar.addVersion, hvalid, hkey]

/-! ## Loading -/

/-- What the metadata and the objects hold after some versions were read: the status of each, under its number. -/
def Records (done : List JsonVersion) (s : KeyMetadata × Heap) : Prop :=
  ∀ n status, (∃ r, s.1.versions.lookup n = some r ∧ (s.2.object r).status = status) ↔
    ∃ v ∈ done, v.versionNumber = n ∧ getStatus v.status = .ok status

theorem Records.readVersion {done : List JsonVersion} {s s' : KeyMetadata × Heap} {j : JsonVersion} (hr : Records done s)
    (hf : Fits s.1 s.2) (hnew : ∀ v ∈ done, v.versionNumber ≠ j.versionNumber) (h : readVersion s j = .ok s') :
    Records (done ++ [j]) s' := by
  unfold Python.readVersion at h
  cases hs : getStatus j.status with
  | error e =>
    rw [hs] at h
    cases h
  | ok status =>
    rw [hs] at h
    cases Except.ok.inj h
    have hfree : j.versionNumber ∉ s.1.versions := by
      intro hmem
      obtain ⟨r, hl⟩ := Option.isSome_iff_exists.mp (AList.lookup_isSome.mpr hmem)
      obtain ⟨v, hv, hn, -⟩ := (hr j.versionNumber (s.2.object r).status).mp ⟨r, hl, rfl⟩
      exact hnew v hv hn
    intro n status'
    simp only [KeyMetadata.addVersion, if_neg hfree, List.mem_append, List.mem_singleton, or_and_right, exists_or,
      exists_eq_left, ← hr n status']
    by_cases hn : n = j.versionNumber
    · subst hn
      have hnone : s.1.versions.lookup j.versionNumber = none := AList.lookup_eq_none.mpr hfree
      simp [hs, hnone]
    · have hn' : ¬ j.versionNumber = n := fun hc => hn hc.symm
      simp only [AList.lookup_insert_ne hn, hn', false_and, or_false]
      refine exists_congr fun r => and_congr_right fun hl => ?_
      rw [Heap.object_alloc_of_lt (hf n r hl).1]

theorem Records.readVersions {done l : List JsonVersion} {s s' : KeyMetadata × Heap} (hr : Records done s) (hf : Fits s.1 s.2)
    (hdistinct : ((done ++ l).map JsonVersion.versionNumber).Nodup) (h : l.foldlM Python.readVersion s = .ok s') :
    Records (done ++ l) s' := by
  induction l generalizing done s with
  | nil =>
    cases Except.ok.inj h
    rwa [List.append_nil]
  | cons j l ih =>
    rw [List.foldlM_cons] at h
    obtain ⟨t, ht, h⟩ := Throwing.ok_of_bind h
    have hnew : ∀ v ∈ done, v.versionNumber ≠ j.versionNumber := by
      intro v hv
      rw [List.map_append, List.nodup_append] at hdistinct
      exact hdistinct.2.2 _ (List.mem_map_of_mem hv) _ (List.mem_map_of_mem List.mem_cons_self)
    rw [List.append_cons] at hdistinct ⊢
    exact ih (hr.readVersion hf hnew ht) (hf.readVersion ht) hdistinct h

theorem records_of_readMetadata {j : JsonMetadata} {m : KeyMetadata} {h : Heap}
    (hdistinct : (j.versions.map JsonVersion.versionNumber).Nodup) (hr : readMetadata j = .ok (m, h)) :
    Records j.versions (m, h) := by
  unfold readMetadata at hr
  obtain ⟨purpose, -, hr⟩ := Throwing.ok_of_bind hr
  obtain ⟨type, -, hr⟩ := Throwing.ok_of_bind hr
  have hempty : Records [] (({ name := j.name, purpose, type, encrypted := j.encrypted } : KeyMetadata), Heap.empty) := by
    intro n status
    simp
  exact hempty.readVersions (fun n r hl => by cases hl) hdistinct hr

/-- A key set that was loaded from metadata with distinct numbers holds the versions of the list. -/
theorem holds_of_init {accept : KeyPurpose → Bool} {order : DictOrder} {reader : Reader κ} {s : Keyczar κ}
    (hdistinct : (reader.metadata.versions.map JsonVersion.versionNumber).Nodup) {versions : List (Int × Lifecycle.Status)}
    (hversions : ∀ n status, (n, status) ∈ versions ↔ ∃ v ∈ reader.metadata.versions,
      v.versionNumber = n ∧ (getStatus v.status).map KeyStatus.lifecycle = .ok status)
    (h : Keyczar.init C accept order reader = .ok s) : Lifecycle.Holds versions (registry s).state := by
  have hlive := live_of_init h
  have hrecords := records_of_readMetadata hdistinct (Keyczar.readMetadata_of_init h)
  have hstatus : ∀ n status, (registry s).state.status n = some status ↔ (n, status) ∈ versions := by
    intro n status
    rw [hversions]
    show (s.metadata.versions.lookup n).map (fun r => (s.heap.object r).status.lifecycle) = some status ↔ _
    rw [Option.map_eq_some_iff]
    constructor
    · rintro ⟨r, hr, rfl⟩
      obtain ⟨v, hv, hn, hst⟩ := (hrecords n _).mp ⟨r, hr, rfl⟩
      exact ⟨v, hv, hn, by rw [hst]; rfl⟩
    · rintro ⟨v, hv, hn, hst⟩
      cases hread : getStatus v.status with
      | error e =>
        rw [hread] at hst
        cases hst
      | ok status' =>
        rw [hread] at hst
        obtain ⟨r, hr, heq⟩ := (hrecords n status').mpr ⟨v, hv, hn, hread⟩
        exact ⟨r, hr, by rw [heq]; exact Except.ok.inj hst⟩
  have hzero : 0 ≤ maxVersionNumber s := (Lifecycle.le_foldl_max _ s.versions 0).1
  refine ⟨hstatus, Int.lt_add_one_of_le hzero, ?_⟩
  rcases Lifecycle.foldl_max_mem (fun r => (s.heap.object r).versionNumber) s.versions 0 with heq | ⟨r, hr, heq⟩
  · exact Or.inl (congrArg (· + 1) heq)
  · have hfound := (hlive.mem_refs_iff r).mp (mem_refs_of_init h hr)
    have hst : (registry s).state.status (s.heap.object r).versionNumber = some (s.heap.object r).status.lifecycle :=
      Lifecycle.Registry.status_state hfound
    exact Or.inr ⟨_, (hstatus _ _).mp hst, congrArg (· + 1) heq.symm⟩

/-! ## Key sets and lifecycles -/

/-- A key set simulates a lifecycle: its registry keeps it. -/
structure Simulates (s : Keyczar κ) (t : Lifecycle.State) : Prop where
  live : Live s
  wellformed : (registry s).Wellformed
  state_eq : (registry s).state = t

/-- A call raises exactly when the lifecycle refuses, and then changes nothing; else both take the same step. -/
def Agrees (s : Keyczar κ) (o : Option Lifecycle.State) (result : Except PyError Unit × Keyczar κ) : Prop :=
  match o with
  | some t => result.1 = .ok () ∧ Simulates result.2 t
  | none => ∃ e, result = (.error e, s)

theorem agrees_of_registry {s : Keyczar κ} {g : Option (Lifecycle.Registry Ref)} {o : Option Lifecycle.State}
    {result : Except PyError Unit × Keyczar κ}
    (hmatch : match g with
      | some g => result.1 = .ok () ∧ registry result.2 = g
      | none => ∃ e, result = (.error e, s))
    (hrefines : Lifecycle.Registry.Refines g o) (hlive : Live result.2) : Agrees s o result := by
  obtain ⟨hstate, hwell⟩ := hrefines
  subst hstate
  cases g with
  | none => exact hmatch
  | some g =>
    obtain ⟨hok, rfl⟩ := hmatch
    exact ⟨hok, hlive, hwell _ rfl, rfl⟩

theorem Simulates.promote {s : Keyczar κ} {t : Lifecycle.State} (h : Simulates s t) (C : KeyClass κ ρ) (n : Int) :
    Agrees s (t.promote n) (GenericKeyczar.promote s n) := by
  have hstep : GenericKeyczar.step C s (.promote n) = some ((GenericKeyczar.promote s n).1, (GenericKeyczar.promote s n).2) := rfl
  rw [← h.state_eq]
  exact agrees_of_registry (promote_registry h.wellformed n) (h.wellformed.promote n) (h.live.step hstep)

theorem Simulates.demote {s : Keyczar κ} {t : Lifecycle.State} (h : Simulates s t) (C : KeyClass κ ρ) (n : Int) :
    Agrees s (t.demote n) (GenericKeyczar.demote s n) := by
  have hstep : GenericKeyczar.step C s (.demote n) = some ((GenericKeyczar.demote s n).1, (GenericKeyczar.demote s n).2) := rfl
  rw [← h.state_eq]
  exact agrees_of_registry (demote_registry s n) (h.wellformed.demote n) (h.live.step hstep)

theorem Simulates.revoke {s : Keyczar κ} {t : Lifecycle.State} (h : Simulates s t) (C : KeyClass κ ρ) (n : Int) :
    Agrees s (t.revoke n) (GenericKeyczar.revoke s n) := by
  have hstep : GenericKeyczar.step C s (.revoke n) = some ((GenericKeyczar.revoke s n).1, (GenericKeyczar.revoke s n).2) := rfl
  rw [← h.state_eq]
  exact agrees_of_registry (revoke_registry s n) (h.wellformed.revoke n) (h.live.step hstep)

/-- `AddVersion` adds a version with the next number when a key comes that is not in use. -/
theorem Simulates.addVersion {s : Keyczar κ} {t : Lifecycle.State} (h : Simulates s t) (status : KeyStatus) {size : Option Int}
    {generated : List (Except PyError κ)} {key : κ}
    (hkey : genUnusedKey C s.keys s.metadata.type (size.getD s.defaultSize) generated = some (.ok key)) :
    ∃ s', GenericKeyczar.addVersion C s status size generated = some (.ok (), s') ∧ Simulates s' (t.add status.lifecycle) := by
  obtain ⟨s', hadd, hregistry⟩ := h.live.addVersion_registry hkey
  have hfresh : ∀ n, (registry s).find n ≠ some s.heap.next := fun n hn => Nat.lt_irrefl _ (h.live.fits n _ hn).1
  obtain ⟨hstate, hwell⟩ := h.wellformed.add hfresh status.lifecycle
  have hstep : GenericKeyczar.step C s (.addVersion status size generated) = some (.ok (), s') := hadd
  refine ⟨s', hadd, h.live.step hstep, ?_, ?_⟩
  · rw [hregistry]
    exact hwell
  · rw [hregistry, hstate, h.state_eq]

/-- A key set that was loaded simulates its own lifecycle. -/
theorem simulates_of_init {order : DictOrder} {reader : Reader κ} {s : Keyczar κ} (h : init C order reader = .ok s) :
    Simulates s (registry s).state :=
  ⟨live_of_init h, (live_of_init h).wellformed (primaryKnown_of_init h), rfl⟩

end GenericKeyczar

end Python
