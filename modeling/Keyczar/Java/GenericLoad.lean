import Keyczar.Java.GenericKeyczar
import Keyczar.Lib.OrderedMap
import Keyczar.Lib.Throwing

/-!
# Loading a key set into `GenericKeyczar`

The version objects are made in the order of the list. When their numbers differ, the map of the metadata leads to each of them, every
one gets its key, and the keys are registered under their hashes in the same order.
-/

namespace Java

namespace MetadataObject

/-- The objects that are built are those of the list, one after the other. -/
theorem buildVersions_spec (versions : List VersionObject) :
    (buildVersions versions).1 = List.range versions.length ∧ (buildVersions versions).2.next = versions.length ∧
    (buildVersions versions).1.map (buildVersions versions).2.object = versions := by
  induction versions using List.reverseRecOn with
  | nil => exact ⟨rfl, rfl, rfl⟩
  | append_singleton versions version ih =>
    obtain ⟨hlist, hnext, hobjects⟩ := ih
    have hstep : buildVersions (versions ++ [version]) =
        ((buildVersions versions).1 ++ [(buildVersions versions).2.next], (buildVersions versions).2.alloc version) := by
      unfold buildVersions
      rw [List.foldl_append]
      rfl
    rw [hstep]
    refine ⟨?_, ?_, ?_⟩
    · rw [hlist, hnext, List.length_append, List.length_singleton, List.range_succ]
    · rw [ObjectHeap.next_alloc, hnext, List.length_append, List.length_singleton]
    · rw [List.map_append, List.map_singleton, ObjectHeap.object_alloc_self]
      have hold : (buildVersions versions).1.map ((buildVersions versions).2.alloc version).object =
          (buildVersions versions).1.map (buildVersions versions).2.object := by
        refine List.map_congr_left ?_
        intro r hr
        rw [hlist, List.mem_range, ← hnext] at hr
        exact ObjectHeap.object_alloc_of_lt hr version
      rw [hold, hobjects]

end MetadataObject

namespace GenericKeyczar

variable {P : Primitives}

/-- The numbers of the versions that have a key. -/
def numbers (z : GenericKeyczar) : List Int := z.getVersions.map z.number

/-- The keys that a hash finds when each key is registered under all its hashes, in order. -/
def registered (P : Primitives) (entries : List (Ref × KeyczarKey)) (hash : Bytes) : List KeyczarKey :=
  entries.flatMap fun entry => ((Keyczar.hashes P entry.2).filter (· = hash)).map fun _ => entry.2

theorem registered_append (entries entries' : List (Ref × KeyczarKey)) (hash : Bytes) :
    registered P (entries ++ entries') hash = registered P entries hash ++ registered P entries' hash :=
  List.flatMap_append

/-- Registering a key under several hashes. -/
theorem foldl_addKeyHashMap (hs : List Bytes) (key : KeyczarKey) (z : GenericKeyczar) :
    hs.foldl (fun z h => z.addKeyHashMap h key) z =
      { z with hashMap := fun hash => z.hashMap hash ++ (hs.filter (· = hash)).map fun _ => key } := by
  induction hs generalizing z with
  | nil => simp
  | cons a hs ih =>
    rw [List.foldl_cons, ih]
    unfold addKeyHashMap
    dsimp only
    congr 1
    funext hash
    by_cases ha : a = hash
    · simp [ha]
    · have ha' : hash ≠ a := fun h => ha h.symm
      simp [ha, ha']

/-- A version whose number is new is put behind the others. -/
theorem putKey_of_new {number : Ref → Int} {version : Ref} {key : KeyczarKey} {entries : List (Ref × KeyczarKey)}
    (h : ∀ entry ∈ entries, number entry.1 ≠ number version) : putKey number version key entries = entries ++ [(version, key)] := by
  induction entries with
  | nil => rfl
  | cons entry entries ih =>
    unfold putKey
    rw [if_neg (h entry List.mem_cons_self), ih fun e he => h e (List.mem_cons_of_mem _ he)]
    rfl

/-- What holds after some of the versions were loaded. -/
structure Loading (P : Primitives) (reader : JsonReader) (z₀ : GenericKeyczar) (done : List Ref) (z : GenericKeyczar) : Prop where
  heap_eq : z.heap = z₀.heap
  kmd_eq : z.kmd = z₀.kmd
  getVersions_eq : z.getVersions = done
  key : ∀ entry ∈ z.versionMap, reader.getKey (z.number entry.1) = .ok entry.2
  primary_iff : ∀ r, z.primaryVersion = some r ↔ r ∈ done ∧ z.status r = some .primary
  hashMap_eq : ∀ hash, z.hashMap hash = registered P z.versionMap hash

theorem Loading.loadVersion {reader : JsonReader} {z₀ z z' : GenericKeyczar} {done : List Ref} {version : Ref}
    (hl : Loading P reader z₀ done z) (hnew : ∀ r ∈ done, z₀.number r ≠ z₀.number version)
    (h : z.loadVersion P reader version = .ok z') : Loading P reader z₀ (done ++ [version]) z' := by
  have hnumber : z.number = z₀.number := by
    unfold number
    rw [hl.heap_eq]
  unfold GenericKeyczar.loadVersion at h
  by_cases hsingle : z.status version = some .primary ∧ z.primaryVersion.isSome = true
  · rw [if_pos hsingle] at h
    cases h
  · rw [if_neg hsingle] at h
    obtain ⟨key, hkey, h⟩ := Throwing.ok_of_bind h
    rw [foldl_addKeyHashMap] at h
    have hput : putKey z.number version key z.versionMap = z.versionMap ++ [(version, key)] := by
      refine putKey_of_new ?_
      intro entry hentry
      rw [hnumber]
      refine hnew entry.1 ?_
      rw [← hl.getVersions_eq]
      exact List.mem_map_of_mem hentry
    cases h
    refine ⟨hl.heap_eq, hl.kmd_eq, ?_, ?_, ?_, ?_⟩
    · show (putKey z.number version key z.versionMap).map Prod.fst = done ++ [version]
      rw [hput, List.map_append, ← hl.getVersions_eq]
      rfl
    · intro entry hentry
      replace hentry : entry ∈ putKey z.number version key z.versionMap := hentry
      rw [hput] at hentry
      rcases List.mem_append.mp hentry with hold | hlast
      · exact hl.key entry hold
      · cases List.mem_singleton.mp hlast
        exact hkey
    · intro r
      show (if z.status version = some .primary then some version else z.primaryVersion) = some r ↔ _ ∧ z.status r = some .primary
      rw [List.mem_append, List.mem_singleton]
      by_cases hst : z.status version = some .primary
      · rw [if_pos hst, Option.some_inj]
        have hnone : z.primaryVersion = none := by
          rw [← Option.not_isSome_iff_eq_none]
          exact fun hsome => hsingle ⟨hst, hsome⟩
        constructor
        · rintro rfl
          exact ⟨Or.inr rfl, hst⟩
        · rintro ⟨hold | rfl, hr⟩
          · have := (hl.primary_iff r).mpr ⟨hold, hr⟩
            rw [hnone] at this
            cases this
          · rfl
      · rw [if_neg hst, hl.primary_iff]
        constructor
        · rintro ⟨hold, hr⟩
          exact ⟨Or.inl hold, hr⟩
        · rintro ⟨hold | rfl, hr⟩
          · exact ⟨hold, hr⟩
          · exact absurd hr hst
    · intro hash
      show z.hashMap hash ++ _ = registered P (putKey z.number version key z.versionMap) hash
      rw [hput, registered_append, ← hl.hashMap_eq]
      simp [registered]

theorem Loading.loadVersions {reader : JsonReader} {z₀ z z' : GenericKeyczar} {done rest : List Ref}
    (hl : Loading P reader z₀ done z) (hnew : ((done ++ rest).map z₀.number).Nodup)
    (h : rest.foldlM (fun z version => z.loadVersion P reader version) z = .ok z') : Loading P reader z₀ (done ++ rest) z' := by
  induction rest generalizing done z with
  | nil =>
    cases h
    rwa [List.append_nil]
  | cons version rest ih =>
    rw [List.foldlM_cons] at h
    obtain ⟨z₁, hload, h⟩ := Throwing.ok_of_bind h
    have hdone : ∀ r ∈ done, z₀.number r ≠ z₀.number version := by
      intro r hr
      rw [List.map_append, List.nodup_append] at hnew
      exact hnew.2.2 _ (List.mem_map_of_mem hr) _ (List.mem_map_of_mem List.mem_cons_self)
    rw [List.append_cons] at hnew ⊢
    exact ih (hl.loadVersion hdone hload) hnew h

/-- What the constructor makes of metadata whose numbers are distinct. -/
structure Loaded (P : Primitives) (reader : JsonReader) (z : GenericKeyczar) : Prop where
  objects : z.kmd.versions.map z.heap.object = reader.metadata.versions
  refs : z.kmd.versions = List.range z.heap.next
  map_iff : ∀ n r, z.kmd.versionMap n = some r ↔ r ∈ z.kmd.versions ∧ z.number r = n
  getVersions_eq : z.getVersions = z.kmd.versions
  key : ∀ entry ∈ z.versionMap, reader.getKey (z.number entry.1) = .ok entry.2
  primary_iff : ∀ r, z.primaryVersion = some r ↔ r ∈ z.kmd.versions ∧ z.status r = some .primary
  hashMap_eq : ∀ hash, z.hashMap hash = registered P z.versionMap hash
  kmd_eq : z.kmd = (MetadataObject.read reader.metadata).1
  encrypted : ¬ (z.kmd.encrypted && !reader.isEncryptedReader)

/-- The key set before the first version is loaded. -/
def start (reader : JsonReader) : GenericKeyczar where
  heap := (MetadataObject.read reader.metadata).2
  kmd := (MetadataObject.read reader.metadata).1

theorem objects_start (reader : JsonReader) :
    (start reader).kmd.versions.map (start reader).heap.object = reader.metadata.versions :=
  (MetadataObject.buildVersions_spec reader.metadata.versions).2.2

theorem refs_start (reader : JsonReader) : (start reader).kmd.versions = List.range (start reader).heap.next := by
  obtain ⟨hlist, hnext, -⟩ := MetadataObject.buildVersions_spec reader.metadata.versions
  rw [← hnext] at hlist
  exact hlist

theorem numbers_start (reader : JsonReader) :
    (start reader).kmd.versions.map (start reader).number = reader.metadata.versions.map VersionObject.versionNumber := by
  rw [← objects_start reader, List.map_map]
  rfl

theorem loading_start (reader : JsonReader) : Loading P reader (start reader) [] (start reader) := by
  refine ⟨rfl, rfl, rfl, nofun, ?_, fun _ => rfl⟩
  intro r
  exact iff_of_false nofun fun h => nomatch h.1

theorem new_eq (P : Primitives) (reader : JsonReader) : new P reader =
    if (reader.metadata.encrypted && !reader.isEncryptedReader) = true then .error (.keyczar .needEncryptedReader)
    else (start reader).kmd.versions.foldlM (fun z version => z.loadVersion P reader version) (start reader) := rfl

theorem loaded_of_new {reader : JsonReader} {z : GenericKeyczar}
    (hdistinct : (reader.metadata.versions.map VersionObject.versionNumber).Nodup) (h : new P reader = .ok z) : Loaded P reader z := by
  rw [new_eq] at h
  split at h
  · cases h
  · rename_i hencrypted
    rw [← numbers_start] at hdistinct
    have hload : Loading P reader (start reader) ([] ++ (start reader).kmd.versions) z :=
      (loading_start reader).loadVersions hdistinct h
    rw [List.nil_append] at hload
    have hnumber : z.number = (start reader).number := by
      unfold number
      rw [hload.heap_eq]
    refine ⟨?_, ?_, ?_, ?_, hload.key, ?_, hload.hashMap_eq, hload.kmd_eq, ?_⟩
    · rw [hload.kmd_eq, hload.heap_eq]
      exact objects_start reader
    · rw [hload.kmd_eq, hload.heap_eq]
      exact refs_start reader
    · intro n r
      rw [hload.kmd_eq, hnumber]
      refine (List.foldl_update_iff hdistinct n r).trans ?_
      constructor
      · rintro ⟨r', hr', heq, rfl⟩
        exact ⟨hr', heq⟩
      · rintro ⟨hr, heq⟩
        exact ⟨r, hr, heq, rfl⟩
    · rw [hload.getVersions_eq, hload.kmd_eq]
    · intro r
      rw [hload.kmd_eq]
      exact hload.primary_iff r
    · rw [hload.kmd_eq]
      exact hencrypted

end GenericKeyczar

end Java
