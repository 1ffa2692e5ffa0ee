import Keyczar.Java.GenericLifecycle

/-!
# What is written, read again

The constructor registers a key under its hash and its fall-back hashes, `addVersion` under its hash only; and `revoke` takes a
version from the metadata only. Where no key with fall-back hashes is added and no version revoked, a key set that is constructed from
what `write` emits finds the same keys.
-/

namespace Java

namespace GenericKeyczar

variable {P : Primitives}

/-! ## Reading succeeds -/

/-- The constructor's loop gets through when every version has a key and at most one is primary. -/
theorem loadVersions_ok {reader : JsonReader} {z₀ z : GenericKeyczar} {done rest : List Ref} (hl : Loading P reader z₀ done z)
    (hnew : ((done ++ rest).map z₀.number).Nodup) (hkey : ∀ r ∈ rest, ∃ key, reader.getKey (z₀.number r) = .ok key)
    (hsingle : ∀ r ∈ done ++ rest, ∀ r' ∈ done ++ rest, z₀.status r = some .primary → z₀.status r' = some .primary → r = r') :
    ∃ z', rest.foldlM (fun z version => z.loadVersion P reader version) z = .ok z' := by
  induction rest generalizing done z with
  | nil => exact ⟨z, rfl⟩
  | cons version rest ih =>
    have hnumber : z.number = z₀.number := by
      unfold number
      rw [hl.heap_eq]
    have hstatus : z.status = z₀.status := by
      unfold GenericKeyczar.status
      rw [hl.heap_eq]
    have hdone : ∀ r ∈ done, z₀.number r ≠ z₀.number version := by
      intro r hr
      rw [List.map_append, List.nodup_append] at hnew
      exact hnew.2.2 _ (List.mem_map_of_mem hr) _ (List.mem_map_of_mem List.mem_cons_self)
    have hprimary : ¬ (z.status version = some .primary ∧ z.primaryVersion.isSome = true) := by
      rintro ⟨hst, hsome⟩
      obtain ⟨r, hr⟩ := Option.isSome_iff_exists.mp hsome
      obtain ⟨hmem, hr⟩ := (hl.primary_iff r).mp hr
      rw [hstatus] at hst hr
      have heq := hsingle r (List.mem_append_left _ hmem) version (List.mem_append_right _ List.mem_cons_self) hr hst
      exact hdone r hmem (by rw [heq])
    obtain ⟨key, hk⟩ := hkey version List.mem_cons_self
    obtain ⟨z₁, hload⟩ : ∃ z₁, z.loadVersion P reader version = .ok z₁ := by
      unfold GenericKeyczar.loadVersion
      rw [if_neg hprimary, hnumber, hk]
      exact ⟨_, rfl⟩
    rw [List.foldlM_cons, hload]
    rw [List.append_cons] at hnew hsingle
    exact ih (hl.loadVersion hdone hload) hnew (fun r hr => hkey r (List.mem_cons_of_mem _ hr)) hsingle

/-- The constructor accepts metadata with distinct numbers and at most one primary version, when every version has a key. -/
theorem new_ok {reader : JsonReader} (hencrypted : (reader.metadata.encrypted && !reader.isEncryptedReader) = false)
    (hdistinct : (reader.metadata.versions.map VersionObject.versionNumber).Nodup)
    (hkey : ∀ v ∈ reader.metadata.versions, ∃ key, reader.getKey v.versionNumber = .ok key)
    (hsingle : ∀ v ∈ reader.metadata.versions, ∀ v' ∈ reader.metadata.versions,
      v.status = some .primary → v'.status = some .primary → v.versionNumber = v'.versionNumber) :
    ∃ z, new P reader = .ok z := by
  rw [new_eq, if_neg (by rw [hencrypted]; exact nofun)]
  have hobject : ∀ r ∈ (start reader).kmd.versions, (start reader).heap.object r ∈ reader.metadata.versions := by
    intro r hr
    rw [← objects_start]
    exact List.mem_map_of_mem hr
  rw [← numbers_start] at hdistinct
  refine loadVersions_ok (loading_start reader) hdistinct ?_ ?_
  · intro r hr
    exact hkey _ (hobject r hr)
  · intro r hr r' hr' hst hst'
    have heq := hsingle _ (hobject r hr) _ (hobject r' hr') hst hst'
    exact List.inj_on_of_nodup_map hdistinct hr hr' heq

/-! ## What is written -/

theorem registered_eq (entries : List (Ref × KeyczarKey)) (hash : Bytes) :
    registered P entries hash =
      (entries.map Prod.snd).flatMap fun key => ((Keyczar.hashes P key).filter (· = hash)).map fun _ => key := by
  unfold registered
  rw [List.flatMap_map]

/-- Each version has a file with its key. -/
theorem keyFile_write_iff {z : GenericKeyczar} (h : z.numbers.Nodup) (n : Int) (key : KeyczarKey) :
    z.write.keyFile n = some key ↔ ∃ entry ∈ z.versionMap, z.number entry.1 = n ∧ entry.2 = key := by
  have hnodup : (z.versionMap.map fun entry => z.number entry.1).Nodup := by
    unfold numbers getVersions at h
    rwa [List.map_map] at h
  exact List.foldl_update_iff hnodup n key

/-- The key set holds what a reader of what it writes is told: the versions of the metadata are those with a key, and every key is
registered under all its hashes. -/
structure Mirrored (P : Primitives) (z : GenericKeyczar) : Prop extends Consistent z where
  getVersions_eq : z.getVersions = z.kmd.versions
  hashMap_eq : ∀ hash, z.hashMap hash = registered P z.versionMap hash

/-- A key set that is constructed from what was written finds the same keys. -/
theorem Mirrored.reload {z : GenericKeyczar} (h : Mirrored P z) {isEncryptedReader : Bool}
    (hencrypted : (z.kmd.encrypted && !isEncryptedReader) = false) :
    ∃ w, new P (readerOf z.write isEncryptedReader) = .ok w ∧ ∀ hash, w.getKey hash = z.getKey hash := by
  have hnumbers : z.write.metadata.versions.map VersionObject.versionNumber = z.numbers := by
    unfold numbers
    rw [h.getVersions_eq]
    show (z.kmd.versions.map z.heap.object).map VersionObject.versionNumber = _
    rw [List.map_map]
    rfl
  have hdistinct : ((readerOf z.write isEncryptedReader).metadata.versions.map VersionObject.versionNumber).Nodup := by
    show (z.write.metadata.versions.map VersionObject.versionNumber).Nodup
    rw [hnumbers]
    exact h.nodup
  have hfile : ∀ {n key}, (readerOf z.write isEncryptedReader).getKey n = .ok key ↔ z.write.keyFile n = some key := by
    intro n key
    unfold readerOf
    dsimp only
    split
    · rename_i k hk
      rw [hk, Option.some_inj]
      exact Except.ok.injEq k key ▸ Iff.rfl
    · rename_i hk
      rw [hk]
      exact iff_of_false nofun nofun
  have hkey : ∀ v ∈ (readerOf z.write isEncryptedReader).metadata.versions,
      ∃ key, (readerOf z.write isEncryptedReader).getKey v.versionNumber = .ok key := by
    intro v hv
    obtain ⟨r, hr, rfl⟩ := List.mem_map.mp hv
    rw [← h.getVersions_eq] at hr
    obtain ⟨entry, hentry, rfl⟩ := List.mem_map.mp hr
    exact ⟨entry.2, hfile.mpr ((keyFile_write_iff h.nodup _ _).mpr ⟨entry, hentry, rfl, rfl⟩)⟩
  obtain ⟨w, hw⟩ : ∃ w, new P (readerOf z.write isEncryptedReader) = .ok w := by
    refine new_ok hencrypted hdistinct hkey ?_
    intro v hv v' hv' hst hst'
    obtain ⟨r, hr, rfl⟩ := List.mem_map.mp hv
    obtain ⟨r', hr', rfl⟩ := List.mem_map.mp hv'
    have hp := (h.primary_iff r).mpr ⟨hr, hst⟩
    rw [(h.primary_iff r').mpr ⟨hr', hst'⟩] at hp
    rw [Option.some.inj hp]
  refine ⟨w, hw, ?_⟩
  have hloaded := loaded_of_new hdistinct hw
  -- both key sets list the same keys, those in the files of the same numbers
  have hfiles : ∀ {u : GenericKeyczar}, (∀ entry ∈ u.versionMap, z.write.keyFile (u.number entry.1) = some entry.2) →
      (u.versionMap.map Prod.snd).map some = u.numbers.map z.write.keyFile := by
    intro u hu
    unfold numbers getVersions
    rw [List.map_map, List.map_map, List.map_map]
    exact List.map_congr_left fun entry hentry => (hu entry hentry).symm
  have hkeys : w.versionMap.map Prod.snd = z.versionMap.map Prod.snd := by
    have hsame : w.numbers = z.numbers := hloaded.numbers_eq.trans hnumbers
    have hz := hfiles fun entry hentry => (keyFile_write_iff h.nodup (z.number entry.1) entry.2).mpr ⟨entry, hentry, rfl, rfl⟩
    have hwfiles := hfiles fun entry hentry => hfile.mp (hloaded.key entry hentry)
    rw [hsame, ← hz] at hwfiles
    exact List.map_injective_iff.mpr (Option.some_injective _) hwfiles
  intro hash
  show w.hashMap hash = z.hashMap hash
  rw [hloaded.hashMap_eq, h.hashMap_eq, registered_eq, registered_eq, hkeys]

/-! ## Runs -/

/-- The call leaves the keys where a key set that is read anew has them: a key that is added has no fall-back hashes, and no version
is revoked. -/
def Plain (P : Primitives) (z : GenericKeyczar) : Op → Prop
  | .addVersion _ none => False
  | .addVersion _ (some key) => z.Roomy ∧ key.fallbackHash P = []
  | .addGeneratedVersion _ generated =>
    ∀ key, z.generateUnusedKey P generated = some (.ok key) → z.Roomy ∧ key.fallbackHash P = []
  | .promote _ => True
  | .demote _ => True
  | .revoke n => ∀ r, z.kmd.versionMap n = some r → z.status r ≠ some .inactive

theorem Plain.safe {z : GenericKeyczar} {op : Op} (h : Plain P z op) : Safe P z op := by
  cases op with
  | addVersion status key =>
    cases key with
    | none => exact h.elim
    | some key => exact h.1
  | addGeneratedVersion status generated => exact fun key hkey => (h key hkey).1
  | promote n => trivial
  | demote n => trivial
  | revoke n => trivial

theorem Mirrored.addVersion {z : GenericKeyczar} (h : Mirrored P z) (hfresh : z.nextNumber ∉ z.numbers) (status : Option KeyStatus)
    {key : KeyczarKey} (hkey : key.fallbackHash P = []) : Mirrored P (z.addVersion P status (some key)).2 := by
  have hnew : NewVersion P z (z.addVersion P status (some key)).2 status key :=
    h.toStructured.newVersion h.primary_lt hfresh status key
  refine ⟨hnew.consistent h.toConsistent hfresh, ?_, ?_⟩
  · rw [hnew.getVersions_eq, hnew.versions_eq, h.getVersions_eq]
  · intro hash
    rw [hnew.hashMap_eq, hnew.versionMap_eq, registered_append, ← h.hashMap_eq]
    congr 1
    by_cases hh : hash = key.hash P
    · simp [registered, Keyczar.hashes, hkey, hh]
    · have hh' : key.hash P ≠ hash := fun heq => hh heq.symm
      simp [registered, Keyczar.hashes, hkey, hh, hh']

/-- What a call that adds nothing and revokes nothing leaves. -/
theorem Mirrored.congr {z z' : GenericKeyczar} (h : Mirrored P z) (hz' : Consistent z') (hkmd : z'.kmd = z.kmd)
    (hmap : z'.versionMap = z.versionMap) (hhash : z'.hashMap = z.hashMap) : Mirrored P z' := by
  refine ⟨hz', ?_, ?_⟩
  · unfold getVersions
    rw [hmap, hkmd]
    exact h.getVersions_eq
  · intro hash
    rw [hhash, hmap]
    exact h.hashMap_eq hash

/-- A promotion and a demotion leave both collections of the metadata and both maps of keys. -/
theorem frame_promote (z : GenericKeyczar) (n : Int) :
    (z.promote n).2.kmd = z.kmd ∧ (z.promote n).2.versionMap = z.versionMap ∧ (z.promote n).2.hashMap = z.hashMap := by
  unfold GenericKeyczar.promote
  split
  · exact ⟨rfl, rfl, rfl⟩
  · split <;> exact ⟨rfl, rfl, rfl⟩

theorem frame_demote (z : GenericKeyczar) (n : Int) :
    (z.demote n).2.kmd = z.kmd ∧ (z.demote n).2.versionMap = z.versionMap ∧ (z.demote n).2.hashMap = z.hashMap := by
  unfold GenericKeyczar.demote
  split
  · exact ⟨rfl, rfl, rfl⟩
  · split <;> exact ⟨rfl, rfl, rfl⟩

theorem revoke_refused {z : GenericKeyczar} {n : Int} (h : ∀ r, z.kmd.versionMap n = some r → z.status r ≠ some .inactive) :
    (z.revoke n).2 = z := by
  unfold GenericKeyczar.revoke
  cases hm : z.kmd.versionMap n with
  | none => rw [getVersion_eq_error hm]
  | some r =>
    rw [getVersion_eq_ok hm]
    dsimp only
    rw [if_neg (h r hm)]

theorem encrypted_addVersion (z : GenericKeyczar) (status : Option KeyStatus) (key : KeyczarKey) :
    (z.addVersion P status (some key)).2.kmd.encrypted = z.kmd.encrypted := by
  show ((z.addVersionObject status).kmd.addVersion _ _).2.encrypted = z.kmd.encrypted
  have hkmd : (z.addVersionObject status).kmd = z.kmd := by
    unfold GenericKeyczar.addVersionObject
    split <;> rfl
  unfold MetadataObject.addVersion
  rw [hkmd]
  split <;> rfl

theorem Mirrored.step {z z' : GenericKeyczar} (h : Mirrored P z) (hint : ∀ n ∈ z.numbers, n < 2 ^ 31) {op : Op}
    {result : Except Exception Unit} (hplain : Plain P z op) (hstep : z.step P op = some (result, z')) :
    Mirrored P z' ∧ z'.kmd.encrypted = z.kmd.encrypted := by
  have hconsistent := (h.toConsistent.step hint hplain.safe hstep).consistent
  cases op with
  | addVersion status key =>
    cases key with
    | none => exact hplain.elim
    | some key =>
      obtain ⟨hroomy, hkey⟩ := hplain
      cases hstep
      exact ⟨h.addVersion (nextNumber_notMem hint hroomy) status hkey, z.encrypted_addVersion status key⟩
  | addGeneratedVersion status generated =>
    replace hstep : z.addGeneratedVersion P status generated = some (result, z') := hstep
    unfold addGeneratedVersion at hstep
    split at hstep
    · cases hstep
    · cases hstep
      exact ⟨h, rfl⟩
    · rename_i key hfound
      obtain ⟨hroomy, hkey⟩ := hplain key hfound
      cases hstep
      exact ⟨h.addVersion (nextNumber_notMem hint hroomy) status hkey, z.encrypted_addVersion status key⟩
  | promote n =>
    have heq : z.promote n = (result, z') := Option.some.inj hstep
    obtain ⟨hkmd, hmap, hhash⟩ := z.frame_promote n
    rw [heq] at hkmd hmap hhash
    exact ⟨h.congr hconsistent hkmd hmap hhash, congrArg MetadataObject.encrypted hkmd⟩
  | demote n =>
    have heq : z.demote n = (result, z') := Option.some.inj hstep
    obtain ⟨hkmd, hmap, hhash⟩ := z.frame_demote n
    rw [heq] at hkmd hmap hhash
    exact ⟨h.congr hconsistent hkmd hmap hhash, congrArg MetadataObject.encrypted hkmd⟩
  | revoke n =>
    have heq : z.revoke n = (result, z') := Option.some.inj hstep
    have hsame : z' = z := by
      rw [← revoke_refused hplain, heq]
    rw [hsame]
    exact ⟨h, rfl⟩

theorem Runs.mirrored {z₀ z : GenericKeyczar} {given : List Int} (h : Runs P (Plain P) z₀ given z) (hz₀ : Mirrored P z₀)
    (hint : ∀ n ∈ z₀.numbers, n < 2 ^ 31) :
    Mirrored P z ∧ z.kmd.encrypted = z₀.kmd.encrypted ∧ ∀ n ∈ z.numbers, n < 2 ^ 31 := by
  induction h with
  | start => exact ⟨hz₀, rfl, hint⟩
  | step op _ hplain hstep ih =>
    obtain ⟨hmirrored, hencrypted, hlt⟩ := ih
    obtain ⟨hnext, heq⟩ := hmirrored.step hlt hplain hstep
    refine ⟨hnext, heq.trans hencrypted, ?_⟩
    intro n hn
    rw [(hmirrored.toConsistent.step hlt hplain.safe hstep).numbers_eq] at hn
    rcases List.mem_append.mp hn with hold | hnew
    · exact hlt n hold
    · exact givenOut_lt _ op _ n hnew

/-- After every run that adds no key with fall-back hashes and revokes no version: a key set constructed from what is written finds
the same keys under every hash; the versions with a key are those of the metadata; and every key that is found, and every file that
is written, is that of a version of the metadata. -/
theorem reload_of_runs {reader : JsonReader} {z₀ z : GenericKeyczar} {given : List Int} (hnew : new P reader = .ok z₀)
    (hdistinct : (reader.metadata.versions.map VersionObject.versionNumber).Nodup)
    (hint : ∀ v ∈ reader.metadata.versions, v.versionNumber < 2 ^ 31) (h : Runs P (Plain P) z₀ given z) :
    (∃ w, new P (readerOf z.write reader.isEncryptedReader) = .ok w ∧ ∀ hash, w.getKey hash = z.getKey hash) ∧
    z.getVersions = z.kmd.versions ∧
    (∀ hash, ∀ key ∈ z.getKey hash, ∃ r ∈ z.kmd.versions, (r, key) ∈ z.versionMap) ∧
    ∀ n, z.write.keyFile n ≠ none → ∃ r ∈ z.kmd.versions, z.number r = n := by
  have hloaded := loaded_of_new hdistinct hnew
  obtain ⟨hz, hencrypted, -⟩ :=
    h.mirrored ⟨hloaded.consistent hdistinct, hloaded.getVersions_eq, hloaded.hashMap_eq⟩ (hloaded.numbers_lt hint)
  have hentry : ∀ entry ∈ z.versionMap, entry.1 ∈ z.kmd.versions := by
    intro entry hmem
    rw [← hz.getVersions_eq]
    exact List.mem_map_of_mem hmem
  refine ⟨hz.reload ?_, hz.getVersions_eq, ?_, ?_⟩
  · rw [hencrypted]
    exact Bool.eq_false_iff.mpr hloaded.encrypted
  · intro hash key hkey
    replace hkey : key ∈ z.hashMap hash := hkey
    rw [hz.hashMap_eq] at hkey
    obtain ⟨entry, hmem, hkey⟩ := List.mem_flatMap.mp hkey
    obtain ⟨-, -, rfl⟩ := List.mem_map.mp hkey
    exact ⟨entry.1, hentry entry hmem, hmem⟩
  · intro n hn
    obtain ⟨key, hkey⟩ := Option.ne_none_iff_exists'.mp hn
    obtain ⟨entry, hmem, hnum, -⟩ := (keyFile_write_iff hz.nodup n key).mp hkey
    exact ⟨entry.1, hentry entry hmem, hnum⟩

theorem reload_of_runs_small : ∃ z₀ z, new Primitives.plain (smallReader [⟨1, some .primary, false⟩]) = .ok z₀ ∧
    Runs Primitives.plain (Plain Primitives.plain) z₀ [2] z ∧
    ∃ w, new Primitives.plain (readerOf z.write false) = .ok w ∧ ∀ hash, w.getKey hash = z.getKey hash := by
  obtain ⟨z₀, hz₀⟩ : ∃ z₀, new Primitives.plain (smallReader [⟨1, some .primary, false⟩]) = .ok z₀ := ⟨_, rfl⟩
  have hrun : ∃ z, Runs Primitives.plain (Plain Primitives.plain) z₀ [2] z := by
    cases hz₀
    exact ⟨_, .step (.addVersion (some .primary) (some (.other [0, 0, 0, 2] []))) .start ⟨by decide, rfl⟩ rfl⟩
  obtain ⟨z, hrun⟩ := hrun
  exact ⟨z₀, z, hz₀, hrun, (reload_of_runs hz₀ (by decide) (by decide) hrun).1⟩

/-- An AES key of 32 bytes. -/
def longAesKey : KeyczarKey := .aes { aesBytes := List.replicate 32 1, hmacKey := ⟨[7], by decide⟩, ne_nil := by decide }

/-- An AES key of 32 bytes that is added is found by its hash only, and read anew by its fall-back hash too; and a revoked key is still
found and written. -/
theorem reload_differs :
    (∃ z₀ z w, new Primitives.plain (smallReader []) = .ok z₀ ∧
      Runs Primitives.plain (fun _ _ => True) z₀ [1] z ∧ new Primitives.plain (readerOf z.write false) = .ok w ∧
      z.getKey [0, 0, 0, 16] = [] ∧ w.getKey [0, 0, 0, 16] ≠ []) ∧
    ∃ z₀ z w, new Primitives.plain (smallReader [⟨1, some .inactive, false⟩]) = .ok z₀ ∧
      Runs Primitives.plain (fun _ _ => True) z₀ [] z ∧ new Primitives.plain (readerOf z.write false) = .ok w ∧
      z.getVersions ≠ z.kmd.versions ∧ z.getKey [0, 0, 0, 1] ≠ [] ∧ w.getKey [0, 0, 0, 1] = [] ∧ z.write.keyFile 1 ≠ none :=
  ⟨⟨_, _, _, rfl, .step (.addVersion (some .primary) (some longAesKey)) .start trivial rfl, rfl, rfl, nofun⟩,
    ⟨_, _, _, rfl, .step (.revoke 1) .start trivial rfl, rfl, by decide, nofun, rfl, nofun⟩⟩

end GenericKeyczar

end Java
