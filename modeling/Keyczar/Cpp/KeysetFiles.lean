import Keyczar.Cpp.KeyTexts
import Keyczar.Cpp.KeysetObservers

/-!
# The files of a key set

A directory holds the metadata in the file "meta" and every key in a file that its version number names. `KeysetJSONFileWriter` observes a
key set and writes what it is told; `KeysetJSONFileReader` reads the files again.
-/

namespace Cpp

/-- What a directory has under the names of its files. -/
abbrev Files := Bytes → Option Bytes

/-- `metadata_basename_`. -/
def metadataBasename : Bytes := asciiString "meta"

namespace Files

variable (A : AsymmetricKeys) (P : Primitives) (files : Files)

/-! ## `keyset_file_writer.cc`, `keyset_writer.cc` -/

/-- `WriteJSONFile`. -/
def writeJSONFile (name : Bytes) (root : Value) : Files := Function.update files name (some (JSONWriter.write root true))

/-- `OnUpdatedKeysetMetadata`; `none` when a null pointer is followed. -/
def onUpdatedKeysetMetadata (metadata : KeysetMetadata) : Option Files :=
  match metadata.toJson false with
  | none => none
  | some none => some files
  | some (some metadataValue) => some (files.writeJSONFile metadataBasename metadataValue)

/-- `OnNewKey`. -/
def onNewKey (key : Key) (versionNumber : Int) : Files :=
  match key.toJson A with
  | none => files
  | some keyValue => files.writeJSONFile (intToString versionNumber) keyValue

/-- What the writer does when it is told something. `OnRevokedKey` does nothing. -/
def told : Notification → Option Files
  | .updatedKeysetMetadata metadata => files.onUpdatedKeysetMetadata metadata
  | .newKey key versionNumber => some (files.onNewKey A key versionNumber)
  | .revokedKey _ => some files

/-! ## `keyset_file_reader.cc` -/

/-- `ReadMetadata`, with what `CreateFromValue` makes of it; the outer `none` is a `CHECK` that fails. -/
def readMetadata : Option (Option KeysetMetadata) :=
  match files metadataBasename with
  | none => some none
  | some text => KeysetMetadata.ofText text

/-- `ReadKey`, with what `Key::CreateFromValue` makes of it. -/
def readKey (keyType : KeyType) (versionNumber : Int) : Option Key :=
  match files (intToString versionNumber) with
  | none => none
  | some text => Key.ofText A keyType text

/-- The directory as a place where keys are read from. -/
def keysetReader : KeysetReader := { readMetadata := none, readKey := files.readKey A }

/-- `Keyset::Read`; `none` when a `CHECK` fails. -/
def read (loadKeys : Bool) : Option (Except Exception (Option ManagedKeyset)) :=
  match files.readMetadata with
  | none => none
  | some none => some (.ok none)
  | some (some metadata) =>
    some (ManagedKeyset.readVersions P (files.keysetReader A) loadKeys { metadata } metadata.keyVersionsMap.entries)

end Files

/-! ## What keeps a key set from being read again -/

namespace ManagedKeyset

variable {P : Primitives}

/-- The hash of a key is the buggy hash of an earlier one. -/
def Clashes (P : Primitives) (s : ManagedKeyset) (n' : Int) : Prop :=
  ∃ n key key' hash, n < n' ∧ s.getKey n = some key ∧ s.getKey n' = some key' ∧ key.buggyHash P = .ok (some hash) ∧
    key'.hash P = some hash

/-- No key has the buggy hash of an earlier one as its hash. -/
def HashesApart (P : Primitives) (s : ManagedKeyset) : Prop := ∀ n, ¬ Clashes P s n

/-- A reader gives the keys of a key set, or nothing for them; what it gives can be hashed. -/
def Offers (P : Primitives) (reader : KeysetReader) (s : ManagedKeyset) : Prop :=
  ∀ {n key}, s.getKey n = some key → reader.readKey s.metadata.keyType n = none ∨
    reader.readKey s.metadata.keyType n = some key ∧ ∃ hash, key.buggyHash P = .ok hash

/-- A version that is not read again: it has no key, or one that clashes with an earlier one. -/
def Refused (P : Primitives) (reader : KeysetReader) (s : ManagedKeyset) (n : Int) : Prop :=
  reader.readKey s.metadata.keyType n = none ∨ Clashes P s n

/-- What holds after some versions of a key set were read again. -/
structure Loaded (P : Primitives) (s : ManagedKeyset) (done : List (Int × KeyVersion)) (t : ManagedKeyset) : Prop where
  reading : Reading P s.metadata done t
  keys : ∀ {n key}, t.getKey n = some key → s.getKey n = some key
  found : ∀ hash, (t.hashMap hash).isSome ↔
    ∃ n key, t.getKey n = some key ∧ (key.hash P = some hash ∨ key.buggyHash P = .ok (some hash))

theorem loaded_nil (P : Primitives) (s : ManagedKeyset) : Loaded P s [] { metadata := s.metadata } := by
  refine ⟨⟨rfl, ⟨?_, ?_⟩, ?_, Or.inl ⟨rfl, ?_⟩⟩, ?_, ?_⟩
  · intro n key hk
    cases hk
  · intro n n' key key' hk
    cases hk
  · intro n
    refine iff_of_false nofun ?_
    rintro ⟨v, hv⟩
    cases hv
  · intro n v hv
    cases hv
  · intro n key hk
    cases hk
  · intro hash
    refine iff_of_false nofun ?_
    rintro ⟨n, key, hk, -⟩
    cases hk

/-- A key whose hash is in use is not added. -/
theorem addKey_of_used {s : ManagedKeyset} {key : Key} {hash : Bytes} (hhash : key.hash P = some hash)
    (hused : (s.hashMap hash).isSome) (n : Int) : s.addKey P key n = (.ok false, s) := by
  unfold addKey
  split
  · rfl
  · rw [hhash]
    dsimp only
    rw [if_pos hused]

/-- A key is added under a hash that is not in use, also when its buggy hash throws. -/
theorem addKey_of_free {s : ManagedKeyset} {key : Key} {n : Int} {hash : Bytes} (hpos : 0 < n)
    (hversion : (s.metadata.getVersion n).isSome) (hnew : s.getKey n = none) (hhash : key.hash P = some hash)
    (hfree : s.hashMap hash = none) :
    s.addKey P key n = ((key.buggyHash P).map fun _ => true, s.withKey P key n hash) := by
  have hcond : ¬ (n ≤ 0 ∨ (s.metadata.getVersion n).isNone ∨ (s.versionNumberMap.find n).isSome) := by
    unfold getKey at hnew
    rw [hnew, ← Option.not_isSome, hversion]
    simpa using hpos
  unfold addKey withKey hashMapWith
  rw [if_neg hcond, hhash]
  dsimp only
  rw [hfree]
  cases key.buggyHash P with
  | error e => rfl
  | ok buggyHash => cases buggyHash <;> rfl

/-- The versions that were read again are those of the key set before a number. -/
structure Before (s : ManagedKeyset) (done : List (Int × KeyVersion)) (n : Int) : Prop where
  version : ∀ e ∈ done, s.metadata.getVersion e.1 = some e.2
  lt : ∀ e ∈ done, e.1 < n
  mem : ∀ n', n' < n → (s.metadata.getVersion n').isSome → ∃ v, (n', v) ∈ done

section Turn

variable {s t : ManagedKeyset} {done : List (Int × KeyVersion)} {n : Int} {v : KeyVersion} {key : Key} {hash : Bytes}

theorem Loaded.lt_of_getKey (h : Loaded P s done t) (hbefore : Before s done n) {n' : Int} {key' : Key}
    (hk : t.getKey n' = some key') : n' < n := by
  obtain ⟨v, hv⟩ := (h.reading.keys n').mp (by rw [hk]; rfl)
  exact hbefore.lt _ hv

/-- The hash of the next key is in use exactly when the key clashes with an earlier one. -/
theorem Loaded.used_iff (h : Loaded P s done t) (hs : Consistent P s) (hbefore : Before s done n) (hkey : s.getKey n = some key)
    (hhash : key.hash P = some hash) : (t.hashMap hash).isSome ↔ Clashes P s n := by
  rw [h.found]
  constructor
  · rintro ⟨n', key', hk', hor⟩
    have hlt := h.lt_of_getKey hbefore hk'
    rcases hor with hsame | hbuggy
    · exact absurd (hs.hashes.distinct (h.keys hk') hkey (hsame.trans hhash.symm)) (Int.ne_of_lt hlt)
    · exact ⟨n', key', key, hash, hlt, h.keys hk', hkey, hbuggy, hhash⟩
  · rintro ⟨n', key', key'', hash', hlt, hk', hk'', hbuggy, hhash'⟩
    obtain rfl := Option.some.inj (hkey.symm.trans hk'')
    obtain rfl := Option.some.inj (hhash.symm.trans hhash')
    have hsome : (s.metadata.getVersion n').isSome := by
      rw [← hs.keys, hk']
      rfl
    obtain ⟨key₁, hk₁⟩ := Option.isSome_iff_exists.mp ((h.reading.keys n').mpr (hbefore.mem n' hlt hsome))
    obtain rfl := Option.some.inj (hk'.symm.trans (h.keys hk₁))
    exact ⟨n', key', hk₁, Or.inr hbuggy⟩

/-- No two primary versions are read. -/
theorem Loaded.primary_eq_zero (h : Loaded P s done t) (hs : Consistent P s) (hbefore : Before s done n)
    (hv : s.metadata.getVersion n = some v) (hst : v.keyStatus = .primary) : ¬ 0 < t.primaryKeyVersionNumber := by
  intro hpos
  rcases h.reading.primary with ⟨hzero, -⟩ | ⟨-, hiff⟩
  · exact absurd hzero (Int.ne_of_gt hpos)
  · obtain ⟨w, hw, hwst⟩ := (hiff t.primaryKeyVersionNumber).mp rfl
    have hprimary : ∀ {n v}, s.metadata.getVersion n = some v → v.keyStatus = .primary → s.lifecycle.status n = some .primary := by
      intro n v hv hst
      rw [status_lifecycle_of_getVersion hv, hst]
      rfl
    have heq := hs.statuses.sound.primary_unique (hprimary (hbefore.version _ hw) hwst) (hprimary hv hst)
    exact absurd heq (Int.ne_of_lt (hbefore.lt _ hw))

/-- With its key, the next version was read. -/
theorem Loaded.withKey (h : Loaded P s done t) (hbefore : Before s done n) (hkey : s.getKey n = some key)
    (hhash : key.hash P = some hash) {t' : ManagedKeyset} (hreading : Reading P s.metadata (done ++ [(n, v)]) t')
    (hversions : t'.versionNumberMap = (t.withKey P key n hash).versionNumberMap)
    (hhashes : t'.hashMap = (t.withKey P key n hash).hashMap) : Loaded P s (done ++ [(n, v)]) t' := by
  have hget : ∀ n', t'.getKey n' = if n' = n then some key else t.getKey n' := by
    intro n'
    rw [← getKey_withKey (P := P) t key n n' hash]
    exact congrArg (fun m => m.find n') hversions
  refine ⟨hreading, ?_, ?_⟩
  · intro n' key' hk'
    rw [hget] at hk'
    split at hk'
    · rename_i heq
      cases hk'
      rw [heq, hkey]
    · exact h.keys hk'
  · intro i
    rw [hhashes, hashMap_withKey]
    constructor
    · intro hsome
      split at hsome
      · rename_i hbuggy
        exact ⟨n, key, by rw [hget, if_pos rfl], Or.inr hbuggy⟩
      · split at hsome
        · rename_i hi
          exact ⟨n, key, by rw [hget, if_pos rfl], Or.inl (by rw [hi, hhash])⟩
        · obtain ⟨n', key', hk', hor⟩ := (h.found i).mp hsome
          exact ⟨n', key', by rw [hget, if_neg (Int.ne_of_lt (h.lt_of_getKey hbefore hk')), hk'], hor⟩
    · rintro ⟨n', key', hk', hor⟩
      split
      · rfl
      · rename_i hbuggy
        split
        · rfl
        · rename_i hi
          rw [hget] at hk'
          split at hk'
          · cases hk'
            rcases hor with hsame | hsame
            · exact absurd (Option.some.inj (hhash.symm.trans hsame)).symm hi
            · exact absurd hsame hbuggy
          · exact (h.found i).mpr ⟨n', key', hk', hor⟩

/-- The next version is read, or the key set is refused. -/
theorem Loaded.readVersion (h : Loaded P s done t) (hs : Consistent P s) {reader : KeysetReader} (hreader : Offers P reader s)
    (hbefore : Before s done n) (hv : s.metadata.getVersion n = some v) :
    ¬ Refused P reader s n ∧ (∃ t', readVersion P reader true t (n, v) = .ok (some t') ∧ Loaded P s (done ++ [(n, v)]) t') ∨
      Refused P reader s n ∧ readVersion P reader true t (n, v) = .ok none := by
  obtain ⟨key, hkey⟩ := Option.isSome_iff_exists.mp ((hs.keys n).trans (by rw [hv]; rfl))
  obtain ⟨hash, found, hhash, -⟩ := hs.hashes.hashed hkey
  have hused := h.used_iff hs hbefore hkey hhash
  rcases hreader hkey with hnone | ⟨hsome, buggyHash, hbuggy⟩
  · refine Or.inr ⟨Or.inl hnone, ?_⟩
    unfold ManagedKeyset.readVersion
    rw [if_pos rfl, h.reading.metadata_eq, hnone]
    rfl
  by_cases hclash : Clashes P s n
  · refine Or.inr ⟨Or.inr hclash, ?_⟩
    unfold ManagedKeyset.readVersion
    rw [if_pos rfl, h.reading.metadata_eq, hsome]
    dsimp only
    rw [addKey_of_used hhash (hused.mpr hclash)]
    rfl
  · refine Or.inl ⟨?_, ?_⟩
    · rintro (hnone | hc)
      · rw [hsome] at hnone
        cases hnone
      · exact hclash hc
    have hnew : t.getKey n = none := by
      rw [← Option.not_isSome_iff_eq_none, h.reading.keys]
      rintro ⟨v, hv⟩
      exact Int.lt_irrefl n (hbefore.lt _ hv)
    have hversion : (t.metadata.getVersion n).isSome := by
      rw [h.reading.metadata_eq, hv]
      rfl
    have hfree := Option.not_isSome_iff_eq_none.mp fun hsome => hclash (hused.mp hsome)
    have hadd := addKey_of_free (hs.statuses.positive hv) hversion hnew hhash hfree
    rw [hbuggy] at hadd
    have hturn : ∃ t', ManagedKeyset.readVersion P reader true t (n, v) = .ok (some t') ∧
        t'.versionNumberMap = (t.withKey P key n hash).versionNumberMap ∧ t'.hashMap = (t.withKey P key n hash).hashMap := by
      unfold ManagedKeyset.readVersion
      rw [if_pos rfl, h.reading.metadata_eq, hsome]
      dsimp only
      rw [hadd]
      simp only [Except.map, pure_bind]
      by_cases hst : v.keyStatus = .primary
      · have hzero : ¬ 0 < (t.withKey P key n hash).primaryKeyVersionNumber := h.primary_eq_zero hs hbefore hv hst
        rw [if_pos hst, if_neg hzero]
        exact ⟨_, rfl, rfl, rfl⟩
      · rw [if_neg hst]
        exact ⟨_, rfl, rfl, rfl⟩
    obtain ⟨t', hturn, hversions, hhashes⟩ := hturn
    exact ⟨t', hturn, h.withKey hbefore hkey hhash (h.reading.readVersion hturn) hversions hhashes⟩

end Turn

theorem before_of_entries {s : ManagedKeyset} {done rest : List (Int × KeyVersion)} {n : Int} {v : KeyVersion}
    (hentries : s.metadata.keyVersionsMap.entries = done ++ (n, v) :: rest) :
    Before s done n ∧ s.metadata.getVersion n = some v := by
  have hmem : ∀ {n' v'}, (n', v') ∈ done ++ (n, v) :: rest ↔ s.metadata.getVersion n' = some v' := by
    intro n' v'
    rw [← hentries]
    exact s.metadata.keyVersionsMap.mem_entries_iff
  have hsorted := s.metadata.keyVersionsMap.sorted
  rw [hentries, List.pairwise_append, List.pairwise_cons] at hsorted
  obtain ⟨-, ⟨hrest, -⟩, hdone⟩ := hsorted
  refine ⟨⟨fun e he => hmem.mp (List.mem_append_left _ he), fun e he => hdone e he _ List.mem_cons_self, ?_⟩,
    hmem.mp (List.mem_append_right _ List.mem_cons_self)⟩
  intro n' hlt hsome
  obtain ⟨v', hv'⟩ := Option.isSome_iff_exists.mp hsome
  rcases List.mem_append.mp (hmem.mpr hv') with hold | hnew
  · exact ⟨v', hold⟩
  · rcases List.mem_cons.mp hnew with heq | hlater
    · cases heq
      exact absurd hlt (Int.lt_irrefl n)
    · exact absurd (Int.lt_trans hlt (hrest _ hlater)) (Int.lt_irrefl n')

/-- The versions are read again one after the other, up to the first that is refused. -/
theorem Loaded.readVersions {s t : ManagedKeyset} {done rest : List (Int × KeyVersion)} (h : Loaded P s done t) (hs : Consistent P s)
    {reader : KeysetReader} (hreader : Offers P reader s) (hentries : s.metadata.keyVersionsMap.entries = done ++ rest) :
    (∀ e ∈ rest, ¬ Refused P reader s e.1) ∧
        (∃ t', readVersions P reader true t rest = .ok (some t') ∧ Loaded P s (done ++ rest) t') ∨
      (∃ e ∈ rest, Refused P reader s e.1) ∧ readVersions P reader true t rest = .ok none := by
  induction rest generalizing done t with
  | nil =>
    refine Or.inl ⟨List.forall_mem_nil _, t, rfl, ?_⟩
    rwa [List.append_nil]
  | cons e rest ih =>
    obtain ⟨n, v⟩ := e
    obtain ⟨hbefore, hv⟩ := before_of_entries hentries
    unfold ManagedKeyset.readVersions
    rcases h.readVersion hs hreader hbefore hv with ⟨hclear, t₁, hturn, h₁⟩ | ⟨hrefused, hturn⟩
    · rw [hturn, Throwing.ok_bind]
      dsimp only
      have hrest := ih h₁ (by rwa [List.append_assoc])
      rw [List.append_assoc] at hrest
      rcases hrest with ⟨hall, hread⟩ | ⟨⟨e, he, hrefused⟩, hread⟩
      · exact Or.inl ⟨List.forall_mem_cons.mpr ⟨hclear, hall⟩, hread⟩
      · exact Or.inr ⟨⟨e, List.mem_cons_of_mem _ he, hrefused⟩, hread⟩
    · rw [hturn, Throwing.ok_bind]
      exact Or.inr ⟨⟨(n, v), List.mem_cons_self, hrefused⟩, rfl⟩

/-- Two key sets with the same metadata, primary version and keys. -/
structure SameKeyset (s t : ManagedKeyset) : Prop where
  metadata_eq : t.metadata = s.metadata
  primary_eq : t.primaryKeyVersionNumber = s.primaryKeyVersionNumber
  versionNumberMap_eq : t.versionNumberMap = s.versionNumberMap

/-- With all versions, the key set was read again. -/
theorem Loaded.sameKeyset {s t : ManagedKeyset} (h : Loaded P s s.metadata.keyVersionsMap.entries t) (hs : Consistent P s) :
    SameKeyset s t := by
  have hmem : ∀ {n v}, (n, v) ∈ s.metadata.keyVersionsMap.entries ↔ s.metadata.getVersion n = some v :=
    s.metadata.keyVersionsMap.mem_entries_iff
  refine ⟨h.reading.metadata_eq, ?_, OrderedMap.ext_find fun n => ?_⟩
  · rcases h.reading.primary with ⟨hzero, hnone⟩ | ⟨hpos, hiff⟩
    · rcases hs.statuses.getPrimaryKeyVersion with ⟨hp, -⟩ | ⟨-, v, hv, hst⟩
      · rw [hzero, hp]
      · exact absurd hst (hnone _ v (hmem.mpr hv))
    · obtain ⟨v, hv, hst⟩ := (hiff t.primaryKeyVersionNumber).mp rfl
      have hstatus : s.lifecycle.status t.primaryKeyVersionNumber = some .primary := by
        rw [status_lifecycle_of_getVersion (hmem.mp hv), hst]
        rfl
      have hprimary := (hs.statuses.sound.primary_iff _).mpr hstatus
      unfold lifecycle at hprimary
      dsimp only at hprimary
      split at hprimary
      · cases hprimary
      · exact (Option.some.inj hprimary).symm
  · show t.getKey n = s.getKey n
    cases hk : t.getKey n with
    | some key => exact (h.keys hk).symm
    | none =>
      have hnone : ¬ (s.metadata.getVersion n).isSome := by
        intro hsome
        obtain ⟨v, hv⟩ := Option.isSome_iff_exists.mp hsome
        have hread := (h.reading.keys n).mpr ⟨v, hmem.mpr hv⟩
        rw [hk] at hread
        cases hread
      rw [← hs.keys, Option.not_isSome_iff_eq_none] at hnone
      exact hnone.symm

end ManagedKeyset

namespace Files

variable {A : AsymmetricKeys} {P : Primitives}

/-- A directory has the metadata and the keys of a key set. -/
structure Recorded (A : AsymmetricKeys) (files : Files) (m : KeysetMetadata) (getKey : Int → Option Key) : Prop where
  metadata : files.readMetadata = some (some m)
  keys : ∀ {n key}, getKey n = some key → files.readKey A m.keyType n = some key

/-- With the metadata of a key set, a directory is read as that key set, or it is refused. -/
theorem read_of_offers {files : Files} {s : ManagedKeyset} (hmetadata : files.readMetadata = some (some s.metadata)) (hs : s.Consistent P)
    (hreader : s.Offers P (files.keysetReader A)) :
    (∀ n, (s.getKey n).isSome → ¬ s.Refused P (files.keysetReader A) n) ∧
        (∃ t, files.read A P true = some (.ok (some t)) ∧ s.SameKeyset t ∧ t.Consistent P) ∨
      (∃ n, (s.getKey n).isSome ∧ s.Refused P (files.keysetReader A) n) ∧ files.read A P true = some (.ok none) := by
  have hread : files.read A P true = some (ManagedKeyset.readVersions P (files.keysetReader A) true { metadata := s.metadata }
      s.metadata.keyVersionsMap.entries) := by
    unfold Files.read
    rw [hmetadata]
  have hmem : ∀ {n v}, (n, v) ∈ s.metadata.keyVersionsMap.entries ↔ s.metadata.getVersion n = some v :=
    s.metadata.keyVersionsMap.mem_entries_iff
  rcases (ManagedKeyset.loaded_nil P s).readVersions hs hreader (List.nil_append _).symm with
    ⟨hclear, t, hturns, hloaded⟩ | ⟨⟨e, he, hrefused⟩, hturns⟩
  · have hlt : ∀ {n v}, s.metadata.getVersion n = some v → 0 < n ∧ n < s.metadata.nextKeyVersionNumber := by
      intro n v hv
      refine ⟨hs.statuses.positive hv, hs.statuses.sound.lt_next n ?_⟩
      rw [ManagedKeyset.status_lifecycle_of_getVersion hv]
      exact nofun
    refine Or.inl ⟨?_, t, hread.trans (by rw [hturns]), hloaded.sameKeyset hs, hloaded.reading.consistent hs.next_pos hlt⟩
    intro n hsome
    rw [hs.keys] at hsome
    obtain ⟨v, hv⟩ := Option.isSome_iff_exists.mp hsome
    exact hclear _ (hmem.mpr hv)
  · refine Or.inr ⟨⟨e.1, ?_, hrefused⟩, hread.trans (by rw [hturns])⟩
    rw [hs.keys, hmem.mp he]
    rfl

end Files

end Cpp
